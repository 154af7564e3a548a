import Imp.Program
import Imp.Token

/-!
The grammar of the language, as a relation between the kinds of tokens and what they stand for.

    Program    := Statement*
    Statement  := VarDecl | Assignment | While | If
    VarDecl    := 'var' IDENT '=' ArithExpr ';'
    Assignment := IDENT '=' ArithExpr ';'
    While      := 'while' '(' BoolExpr ')' open-brace Statement* close-brace
    If         := 'if' '(' BoolExpr ')' open-brace Statement* close-brace
                  ('else' open-brace Statement* close-brace)?
    BoolExpr   := ArithExpr RelOp ArithExpr
    ArithExpr  := Term (('+'|'-') Term)*
    Term       := Factor ('*' Factor)*
    Factor     := NUMBER | IDENT | '(' ArithExpr ')'

Only the full dialect has `If`. A chain of operands is folded to the left.
-/

namespace Imp

namespace Grammar

open Token (Kind)

inductive Level
  | factor | term | arith

-- An operand that follows in a chain, with the operator in front of it.
structure Link where
  op : Operator
  kinds : List Kind
  tree : Expr

def Link.spelled (l : Link) : List Kind :=
  .operator l.op :: l.kinds

def fold (first : Expr) (links : List Link) : Expr :=
  links.foldl (fun left l => .bin l.op left l.tree) first

inductive Derives : Level → List Kind → Expr → Prop
  | number (v : Int32) : Derives .factor [.number v] (.num v)
  | name (x : String) : Derives .factor [.ident x] (.var x)
  | parens {ks : List Kind} {e : Expr} (inner : Derives .arith ks e) :
      Derives .factor (.openParen :: (ks ++ [.closeParen])) e
  | term {ks : List Kind} {e : Expr} {links : List Link} (first : Derives .factor ks e)
      (ops : ∀ l ∈ links, l.op = .mul) (rest : ∀ l ∈ links, Derives .factor l.kinds l.tree) :
      Derives .term (ks ++ links.flatMap Link.spelled) (fold e links)
  | arith {ks : List Kind} {e : Expr} {links : List Link} (first : Derives .term ks e)
      (ops : ∀ l ∈ links, l.op = .add ∨ l.op = .sub)
      (rest : ∀ l ∈ links, Derives .term l.kinds l.tree) :
      Derives .arith (ks ++ links.flatMap Link.spelled) (fold e links)

inductive Condition : List Kind → Cond → Prop
  | mk {ls rs : List Kind} {l r : Expr} (rel : Relation) (left : Derives .arith ls l)
      (right : Derives .arith rs r) : Condition (ls ++ .relation rel :: rs) ⟨rel, l, r⟩

mutual

inductive Statement (d : Dialect) : List Kind → Stmt → Prop
  | declare {ks : List Kind} {e : Expr} (x : String) (value : Derives .arith ks e) :
      Statement d (.varWord :: .ident x :: .assign :: (ks ++ [.semicolon])) (.declare x e)
  | assign {ks : List Kind} {e : Expr} (x : String) (value : Derives .arith ks e) :
      Statement d (.ident x :: .assign :: (ks ++ [.semicolon])) (.assign x e)
  | loop {ks bs : List Kind} {test : Cond} {b : Program} (condition : Condition ks test)
      (body : Statements d bs b) :
      Statement d (.whileWord :: .openParen :: (ks ++ .closeParen :: .openBrace ::
        (bs ++ [.closeBrace]))) (.loop test b)
  | branch {ks ts : List Kind} {test : Cond} {t : Program} (has : d.hasConditionals)
      (condition : Condition ks test) (consequent : Statements d ts t) :
      Statement d (.ifWord :: .openParen :: (ks ++ .closeParen :: .openBrace ::
        (ts ++ [.closeBrace]))) (.branch test t none)
  | branchElse {ks ts fs : List Kind} {test : Cond} {t f : Program} (has : d.hasConditionals)
      (condition : Condition ks test) (consequent : Statements d ts t)
      (alternate : Statements d fs f) :
      Statement d (.ifWord :: .openParen :: (ks ++ .closeParen :: .openBrace ::
        (ts ++ .closeBrace :: .elseWord :: .openBrace :: (fs ++ [.closeBrace]))))
        (.branch test t (some f))

inductive Statements (d : Dialect) : List Kind → Program → Prop
  | nil : Statements d [] []
  | cons {ks ps : List Kind} {s : Stmt} {p : Program} (head : Statement d ks s)
      (tail : Statements d ps p) : Statements d (ks ++ ps) (s :: p)

end

namespace Derives

variable {ks ls : List Kind} {e f : Expr}

theorem term_of_factor (h : Derives .factor ks e) : Derives .term ks e := by
  have h := @term ks e [] h (by simp) (by simp)
  rwa [List.flatMap_nil, List.append_nil] at h

theorem arith_of_term (h : Derives .term ks e) : Derives .arith ks e := by
  have h := @arith ks e [] h (by simp) (by simp)
  rwa [List.flatMap_nil, List.append_nil] at h

-- One more operand at the end of a chain.
theorem times (hl : Derives .term ks e) (hr : Derives .factor ls f) :
    Derives .term (ks ++ .operator .mul :: ls) (.bin .mul e f) := by
  cases hl with
  | @term ks e links first ops rest =>
    have h := @term ks e (links ++ [⟨.mul, ls, f⟩]) first
      (by simpa [or_imp, forall_and] using ops) (by simpa [or_imp, forall_and] using ⟨rest, hr⟩)
    simpa [Link.spelled, fold] using h

theorem plus {op : Operator} (hop : op ≠ .mul) (hl : Derives .arith ks e)
    (hr : Derives .term ls f) :
    Derives .arith (ks ++ .operator op :: ls) (.bin op e f) := by
  have hop : op = .add ∨ op = .sub := by cases op <;> simp at hop ⊢
  cases hl with
  | @arith ks e links first ops rest =>
    have h := @arith ks e (links ++ [⟨op, ls, f⟩]) first
      (by simpa [or_imp, forall_and] using ⟨ops, hop⟩)
      (by simpa [or_imp, forall_and] using ⟨rest, hr⟩)
    simpa [Link.spelled, fold] using h

end Derives

namespace Statements

variable {d : Dialect} {ks ps : List Kind} {s : Stmt} {p q : Program}

theorem append (hp : Statements d ps p) (hq : Statements d ks q) :
    Statements d (ps ++ ks) (p ++ q) := by
  induction p generalizing ps with
  | nil => cases hp; exact hq
  | cons t p ih =>
    cases hp with
    | cons head tail =>
      rw [List.append_assoc]
      exact .cons head (ih tail)

theorem snoc (hp : Statements d ps p) (hs : Statement d ks s) :
    Statements d (ps ++ ks) (p ++ [s]) := by
  have h := append hp (.cons hs .nil)
  rwa [List.append_nil] at h

end Statements

end Grammar

end Imp
