import Imp.Proofs.Parser.Viability
import Imp.Proofs.Printer

/-!
The text of an expression has the fewest parentheses.

An operand of too low a precedence for its place has to be a factor of its own in all token lists
that are read as the expression, and then it stands in parentheses there, too.
-/

namespace Imp

open Grammar Token Token.Lexer

-- The pairs of parentheses in the text of an expression, where some precedence is asked for.
def Expr.parens : Nat → Expr → Nat
  | _, num _ | _, var _ => 0
  | outer, bin op l r =>
    l.parens op.precedence + r.parens (op.precedence + 1)
      + if op.precedence < outer then 1 else 0

namespace Expr

variable {d : Dialect} {m n : Nat} {e : Expr}

theorem parens_mono (h : m ≤ n) (e : Expr) : e.parens m ≤ e.parens n := by
  cases e with
  | num | var => exact Nat.le_refl _
  | bin op l r => simp only [parens]; split <;> split <;> omega

-- What is put in parentheses has no others than when it stands alone.
theorem parens_le_succ (n : Nat) (e : Expr) : e.parens n ≤ e.parens 0 + 1 := by
  cases e with
  | num | var => exact Nat.zero_le _
  | bin op l r => simp only [parens]; split <;> omega

theorem count_kinds (outer : Nat) (e : Expr) :
    (e.kinds outer).count .openParen = e.parens outer := by
  induction e generalizing outer with
  | num | var => simp [kinds, parens]
  | bin op l r ihl ihr =>
    simp only [kinds, parens]
    split <;> simp [ihl, ihr]

theorem count_name {x : String} (h : d.IsName x) : x.toList.count '(' = 0 := by
  refine List.count_eq_zero.mpr fun hmem => ?_
  exact absurd (List.all_eq_true.mp h.letters _ hmem) (by decide)

theorem count_literal {v : Int32} (h : 0 ≤ v) : (toString v.toInt).toList.count '(' = 0 := by
  have ⟨n, _, htext⟩ := exists_digits_of_nonneg h
  rw [htext]
  exact List.count_eq_zero.mpr fun hmem => absurd (isDigit_of_mem_toDigits _ hmem) (by decide)

theorem count_text (he : e.Writable d) (outer : Nat) :
    (e.text outer).toList.count '(' = e.parens outer := by
  induction e generalizing outer with
  | num v => exact count_literal he
  | var x => exact count_name he
  | bin op l r ihl ihr =>
    have hop : op.symbol.toList.count '(' = 0 := by cases op <;> decide
    simp only [text, parens]
    split <;> simp [ihl he.1, ihr he.2, hop]

end Expr

namespace Grammar

-- The precedence that is asked for where an expression of a level stands.
def Level.precedence : Level → Nat
  | arith => 1
  | term => 2
  | factor => 3

variable {level : Level} {ks : List Kind} {e : Expr}

-- Operands of one precedence stand in a chain without parentheses around its parts.
theorem parens_fold_le {n count : Nat} {links : List Link}
    (ops : ∀ l ∈ links, l.op.precedence = n)
    (rest : ∀ l ∈ links, l.tree.parens (n + 1) ≤ l.kinds.count .openParen)
    (he : e.parens n ≤ count) :
    (fold e links).parens n ≤ count + (links.flatMap Link.spelled).count .openParen := by
  induction links generalizing e count with
  | nil => exact he
  | cons l links ih =>
    have hop := ops l (by simp)
    have hl := rest l (by simp)
    have hbin : (Expr.bin l.op e l.tree).parens n ≤ count + l.kinds.count .openParen := by
      simp only [Expr.parens, hop, Nat.lt_irrefl, if_false]
      omega
    have ih := ih (fun l hl => ops l (by simp [hl])) (fun l hl => rest l (by simp [hl])) hbin
    simpa [fold, Link.spelled, Nat.add_assoc] using ih

theorem Derives.parens_le (h : Derives level ks e) :
    e.parens level.precedence ≤ ks.count .openParen := by
  induction h with
  | number | name => exact Nat.zero_le _
  | @parens ks e inner ih =>
    have hsucc := e.parens_le_succ Level.factor.precedence
    have hmono := e.parens_mono (Nat.zero_le Level.arith.precedence)
    simp only [List.count_cons_self, List.count_append]
    omega
  | @term ks e links first ops rest ih ihs =>
    have he := Nat.le_trans (e.parens_mono (Nat.le_succ 2)) ih
    rw [List.count_append]
    exact parens_fold_le (fun l hl => by rw [ops l hl]; rfl) ihs he
  | @arith ks e links first ops rest ih ihs =>
    have he := Nat.le_trans (e.parens_mono (Nat.le_succ 1)) ih
    have hops : ∀ l ∈ links, l.op.precedence = 1 := fun l hl => by
      cases ops l hl with
      | inl h | inr h => rw [h]; rfl
    rw [List.count_append]
    exact parens_fold_le hops ihs he

end Grammar

namespace Dialect

variable {d : Dialect} {ks : List Kind} {e : Expr}

-- Tokens of these kinds are read as an expression, the value of a declaration.
def ReadsExpr (d : Dialect) (ks : List Kind) (e : Expr) : Prop :=
  ∃ ts x, kinds ts = .varWord :: .ident x :: .assign :: (ks ++ [.semicolon]) ∧
    d.parseTokens ts = .ok [.declare x e]

theorem derives_of_declare {x : String} {all : List Kind} (h : Statements d all [.declare x e])
    (hall : all = .varWord :: .ident x :: .assign :: (ks ++ [.semicolon])) :
    Derives .arith ks e := by
  cases h with
  | cons head tail =>
    cases tail
    cases head with
    | declare x value =>
      obtain rfl := by simpa using hall
      exact value

theorem readsExpr_iff : d.ReadsExpr ks e ↔ Derives .arith ks e := by
  refine ⟨fun ⟨ts, x, hts, h⟩ => derives_of_declare (statements_of_parseTokens h) hts, fun h => ?_⟩
  have hp : Statements d _ [.declare "x" e] := .cons (.declare "x" h) .nil
  have ⟨us, _, hkinds, hus⟩ := exists_ended_of_statements hp
  refine ⟨us, "x", ?_, hus⟩
  simpa using kinds_eq_append hkinds (eof_not_mem hp)

theorem eof_not_mem_of_derives (h : Derives .arith ks e) : .eof ∉ ks := by
  intro heof
  have hp : Statements .full _ [.declare "x" e] := .cons (.declare "x" h) .nil
  exact eof_not_mem hp (by simp [heof])

-- The text of an expression is read as the expression, and whatever else is read as the same
-- expression has no fewer parentheses.
theorem fewest_parentheses (h : e.Writable d) :
    (∃ ts, d.tokens (e.text 0) = .ok ts ∧ d.ReadsExpr (kinds ts) e ∧
      (kinds ts).count .openParen = (e.text 0).toList.count '(') ∧
    ∀ ks, d.ReadsExpr ks e → (e.text 0).toList.count '(' ≤ ks.count .openParen := by
  refine ⟨?_, fun ks hks => ?_⟩
  case refine_1 =>
    have hderives := e.derives_kinds 0
    have hlexes : Lexes d (e.text 0).toList (e.kinds 0) := by
      simpa using Expr.lexes_text h 0 Breaks.nil .nil
    have ⟨ts, q, hts, hkinds⟩ := hlexes 0
    let eof : Token := ⟨.eof, q⟩
    have hall : (ts ++ [eof]).map Token.kind = e.kinds 0 ++ [.eof] := by simp [hkinds, eof]
    have heq : kinds (ts ++ [eof]) = e.kinds 0 := by
      simpa using kinds_eq_append hall (eof_not_mem_of_derives hderives)
    refine ⟨_, hts, ?_, ?_⟩
    case refine_1 => rw [heq, readsExpr_iff]; exact hderives
    case refine_2 => rw [heq, Expr.count_kinds, Expr.count_text h]
  case refine_2 =>
    rw [Expr.count_text h]
    exact Nat.le_trans (e.parens_mono (Nat.zero_le 1)) (readsExpr_iff.mp hks).parens_le

-- A difference on the right-hand side of another one, and the same with more parentheses.
def grouped : Expr := .bin .sub (.var "x") (.bin .sub (.num 2) (.var "x"))

def regrouped : List Kind :=
  [.openParen, .ident "x", .closeParen, .operator .sub, .openParen, .openParen, .number 2,
    .operator .sub, .ident "x", .closeParen, .closeParen]

theorem grouped_fewest_parentheses :
    full.ReadsExpr regrouped grouped ∧
      (grouped.text 0).toList.count '(' ≤ regrouped.count .openParen ∧
      ∃ ts, full.tokens (grouped.text 0) = .ok ts ∧ full.ReadsExpr (kinds ts) grouped ∧
        (kinds ts).count .openParen = (grouped.text 0).toList.count '(' := by
  have hwritable : grouped.Writable .full := by
    simp only [grouped, Expr.Writable, isName_x, true_and, and_true]
    decide
  have hreads : full.ReadsExpr regrouped grouped :=
    ⟨(.varWord :: .ident "x" :: .assign :: (regrouped ++ [.semicolon, .eof])).map (⟨·, 0⟩), "x",
      by rfl, by rfl⟩
  obtain ⟨hown, hall⟩ := fewest_parentheses hwritable
  exact ⟨hreads, hall regrouped hreads, hown⟩

end Dialect

end Imp
