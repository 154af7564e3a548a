import Imp.Program.Printer
import Imp.Proofs.Lexer
import Imp.Proofs.Parser.Soundness

/-!
The text of an expression or a condition reads as that very expression or condition.
-/

namespace Imp

open Grammar Token Token.Lexer

namespace Dialect

variable {d : Dialect} {x : String}

-- The words that are not names.
def reserved (d : Dialect) : List String :=
  if d.hasConditionals then ["var", "while", "if", "else"] else ["var", "while"]

structure IsName (d : Dialect) (x : String) : Prop where
  nonempty : x ≠ ""
  letters : x.toList.all isWordChar
  unreserved : x ∉ d.reserved

theorem IsName.ofWord_eq (h : d.IsName x) : Kind.ofWord d x = .ident x := by
  have hx := h.unreserved
  unfold Kind.ofWord
  split <;> cases d <;> simp [reserved, hasConditionals] at hx ⊢

theorem IsName.lexes {cs : List Char} {ks : List Kind} (hx : d.IsName x) (hb : Breaks cs)
    (h : Lexes d cs ks) : Lexes d (x.toList ++ cs) (.ident x :: ks) := by
  have hne : x.toList ≠ [] := by simp [hx.nonempty]
  have hw := Lexes.word hne hx.letters hb h
  rwa [String.ofList_toList, hx.ofWord_eq] at hw

end Dialect

-- The expressions that can be written in a dialect.
def Expr.Writable (d : Dialect) : Expr → Prop
  | num v => 0 ≤ v
  | var x => d.IsName x
  | bin _ l r => l.Writable d ∧ r.Writable d

-- The kinds of the tokens in the text of an expression.
def Expr.kinds : Nat → Expr → List Kind
  | _, num v => [.number v]
  | _, var x => [.ident x]
  | outer, bin op l r =>
    let inner := l.kinds op.precedence ++ .operator op :: r.kinds (op.precedence + 1)
    if op.precedence < outer then .openParen :: (inner ++ [.closeParen]) else inner

def Cond.kinds (c : Cond) : List Kind :=
  c.left.kinds 0 ++ .relation c.rel :: c.right.kinds 0

theorem Token.Lexer.Lexes.literal {d : Dialect} {v : Int32} {cs : List Char} {ks : List Kind}
    (hv : 0 ≤ v) (hb : Breaks cs) (h : Lexes d cs ks) :
    Lexes d ((toString v.toInt).toList ++ cs) (.number v :: ks) := by
  have hlt := v.toInt_lt
  have ⟨n, hn, htext⟩ := exists_digits_of_nonneg hv
  have hnum : Int32.ofNat n = v := by
    rw [← Int32.ofInt_toInt v, hn]
    rfl
  have := Lexes.number (n := n) (by simp only [maxLiteral]; omega) hb h
  rwa [hnum, ← htext] at this

namespace Expr

variable {d : Dialect} {cs : List Char} {ks : List Kind}

theorem lexes_text {e : Expr} (he : e.Writable d) (outer : Nat) (hb : Breaks cs)
    (h : Lexes d cs ks) : Lexes d ((e.text outer).toList ++ cs) (e.kinds outer ++ ks) := by
  induction e generalizing outer cs ks with
  | num v => exact .literal he hb h
  | var x => exact Dialect.IsName.lexes he hb h
  | bin op l r ihl ihr =>
    have ⟨hl, hr⟩ := he
    -- without parentheses, before anything
    have hinner : ∀ {cs ks}, Breaks cs → Lexes d cs ks →
        Lexes d ((l.text op.precedence ++ " " ++ op.symbol ++ " " ++
          r.text (op.precedence + 1)).toList ++ cs)
          (l.kinds op.precedence ++ .operator op :: r.kinds (op.precedence + 1) ++ ks) := by
      intro cs ks hb h
      have hright := (ihr hr (op.precedence + 1) hb h).blank (c := ' ') rfl
      have hop := (Lexes.operator op hright).blank (c := ' ') rfl
      have hleft := ihl hl op.precedence (.cons (by decide)) hop
      simpa using hleft
    simp only [text, kinds]
    split
    case isTrue =>
      have hclose := hinner (.cons (by decide)) (Lexes.mark (c := ')') rfl h)
      have hopen := Lexes.mark (c := '(') rfl hclose
      simpa using hopen
    case isFalse => exact hinner hb h

end Expr

-- What an expression has to be where an operator of some precedence is asked for.
def Grammar.Level.asked : Nat → Level
  | 0 | 1 => .arith
  | 2 => .term
  | _ => .factor

theorem Grammar.Derives.loosen {ks : List Kind} {e : Expr} {n outer : Nat}
    (h : Derives (.asked n) ks e) (hle : outer ≤ n) : Derives (.asked outer) ks e := by
  match outer, n with
  | 0, 0 | 0, 1 | 1, 1 | 2, 2 | _ + 3, _ + 3 => exact h
  | 0, 2 | 1, 2 => exact h.arith_of_term
  | 0, _ + 3 | 1, _ + 3 => exact h.term_of_factor.arith_of_term
  | 2, _ + 3 => exact h.term_of_factor

theorem Grammar.Derives.of_factor {ks : List Kind} {e : Expr} (h : Derives .factor ks e)
    (outer : Nat) : Derives (.asked outer) ks e :=
  loosen (n := outer + 3) h (by omega)

theorem Expr.derives_kinds (e : Expr) (outer : Nat) : Derives (.asked outer) (e.kinds outer) e := by
  induction e generalizing outer with
  | num v => exact (Derives.number v).of_factor outer
  | var x => exact (Derives.name x).of_factor outer
  | bin op l r ihl ihr =>
    have hl := ihl op.precedence
    have hr := ihr (op.precedence + 1)
    have hinner : Derives (.asked op.precedence)
        (l.kinds op.precedence ++ .operator op :: r.kinds (op.precedence + 1)) (.bin op l r) := by
      cases op with
      | mul => exact hl.times hr
      | add | sub => exact hl.plus (by simp) hr
    simp only [kinds]
    split
    case isTrue => exact (Derives.parens (hinner.loosen (Nat.zero_le _))).of_factor outer
    case isFalse hle => exact hinner.loosen (Nat.le_of_not_lt hle)

theorem Cond.condition_kinds (c : Cond) : Condition c.kinds c :=
  .mk c.rel (c.left.derives_kinds 0) (c.right.derives_kinds 0)

theorem Cond.lexes_text {d : Dialect} {c : Cond} {cs : List Char} {ks : List Kind}
    (hl : c.left.Writable d) (hr : c.right.Writable d) (hb : Breaks cs) (h : Lexes d cs ks) :
    Lexes d (c.text.toList ++ cs) (c.kinds ++ ks) := by
  have hright := (Expr.lexes_text hr 0 hb h).blank (c := ' ') rfl
  have hrel := (Lexes.relation c.rel (by simp) hright).blank (c := ' ') rfl
  have hleft := Expr.lexes_text hl 0 (.cons (by decide)) hrel
  simpa [text, kinds] using hleft

namespace Dialect

variable {d : Dialect} {x : String}

theorem parse_of_lexes {text : String} {ks : List Kind} {p : Program} (hl : Lexes d text.toList ks)
    (hp : Statements d ks p) : d.parse text = .ok p := by
  have ⟨ts, q, hts, hks⟩ := hl 0
  have hkinds : kinds (ts ++ [⟨.eof, q⟩]) = ks := by
    have heof : ∀ t ∈ ts, t.kind ≠ .eof := fun t ht h =>
      eof_not_mem hp (hks ▸ h ▸ List.mem_map_of_mem ht)
    rw [kinds, List.takeWhile_append_of_pos (by simpa using heof)]
    simpa using hks
  have hparse : d.parseTokens (ts ++ [⟨.eof, q⟩]) = .ok p :=
    (parseTokens_eq_ok_iff ⟨⟨.eof, q⟩, by simp, rfl⟩).mpr (hkinds ▸ hp)
  have hread : d.read text = .ok ⟨ts ++ [⟨.eof, q⟩], p⟩ := by simp only [read, tokens, hts, hparse]
  simp only [parse, bind_eq_ok]
  exact ⟨_, hread, rfl⟩

theorem parse_declaration {e : Expr} (hx : d.IsName x) (he : e.Writable d) :
    d.parse ("var " ++ x ++ " = " ++ e.text 0 ++ ";") = .ok [.declare x e] := by
  have hsemicolon : Lexes d [';'] [.semicolon] := .mark rfl .nil
  have hvalue := (Expr.lexes_text he 0 (.cons (by decide)) hsemicolon).blank (c := ' ') rfl
  have hassign := (Lexes.short (c := '=') rfl (by simp) hvalue).blank (c := ' ') rfl
  have hname := (hx.lexes (.cons (by decide)) hassign).blank (c := ' ') rfl
  have hvar := Lexes.word (w := ['v', 'a', 'r']) (by simp) (by decide) (.cons (by decide)) hname
  have hp : Statements d _ [.declare x e] := .cons (.declare x (e.derives_kinds 0)) .nil
  exact parse_of_lexes (by simpa using hvar) (by simpa [Kind.ofWord] using hp)

theorem parse_loop {c : Cond} (hl : c.left.Writable d) (hr : c.right.Writable d) :
    d.parse ("while (" ++ c.text ++ ") \x7b \x7d") = .ok [.loop c []] := by
  have hclose : Lexes d ['\x7d'] [.closeBrace] := .mark rfl .nil
  have hopen := (Lexes.mark (c := '\x7b') rfl (hclose.blank (c := ' ') rfl)).blank (c := ' ') rfl
  have hcond := Cond.lexes_text hl hr (.cons (by decide)) (Lexes.mark (c := ')') rfl hopen)
  have hparen := (Lexes.mark (c := '(') rfl hcond).blank (c := ' ') rfl
  have hwhile := Lexes.word (w := ['w', 'h', 'i', 'l', 'e']) (by simp) (by decide)
    (.cons (by decide)) hparen
  have hp : Statements d _ [.loop c []] := .cons (.loop c.condition_kinds .nil) .nil
  exact parse_of_lexes (by simpa using hwhile) (by simpa [Kind.ofWord] using hp)

theorem isName_x (d : Dialect) : d.IsName "x" where
  nonempty := by simp
  letters := by decide
  unreserved := by cases d <;> simp [reserved, hasConditionals]

-- Whatever can be written in a dialect is read back from its text as it was.
theorem parse_printed (d : Dialect) :
    (∀ e : Expr, e.Writable d → d.parse ("var x = " ++ e.text 0 ++ ";") = .ok [.declare "x" e]) ∧
      ∀ c : Cond, c.left.Writable d → c.right.Writable d →
        d.parse ("while (" ++ c.text ++ ") \x7b \x7d") = .ok [.loop c []] := by
  refine ⟨fun e he => ?_, fun c hl hr => parse_loop hl hr⟩
  have hhead : "var x = " = "var " ++ "x" ++ " = " := by decide
  rw [hhead]
  exact parse_declaration d.isName_x he

-- Operators grouped to the right, and a word that only one dialect reserves.
def nested : Expr :=
  .bin .sub (.var "if") (.bin .sub (.num 2) (.bin .mul (.num 1) (.bin .add (.var "x") (.num 3))))

theorem nested_printed :
    Dialect.loop.parse ("var x = " ++ nested.text 0 ++ ";") = .ok [.declare "x" nested] ∧
      Dialect.loop.parse ("while (" ++ Cond.text ⟨.ge, nested, .var "x"⟩ ++ ") \x7b \x7d") =
        .ok [.loop ⟨.ge, nested, .var "x"⟩ []] := by
  have hif : Dialect.loop.IsName "if" :=
    ⟨by simp, by decide, by simp [reserved, hasConditionals]⟩
  have hx := isName_x .loop
  have hnested : nested.Writable .loop := by
    simp only [nested, Expr.Writable, hif, hx, true_and]
    decide
  have ⟨hexpr, hcond⟩ := parse_printed .loop
  exact ⟨hexpr nested hnested, hcond ⟨.ge, nested, .var "x"⟩ hnested hx⟩

end Dialect

end Imp
