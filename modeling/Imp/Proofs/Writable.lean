import Imp.Proofs.Names
import Imp.Proofs.Printer

/-!
What is read from a text can be written: its literals are not negative, and its names are words that
the dialect does not reserve.
-/

namespace Imp

open Grammar Token

structure Stmt.Writable (d : Dialect) (s : Stmt) : Prop where
  target : ∀ x ∈ s.target?, d.IsName x
  exprs : ∀ e ∈ s.exprs, e.Writable d

theorem Stmt.writable_of_test {d : Dialect} {s : Stmt} {test : Cond} (ht : s.target? = none)
    (he : s.exprs = [test.left, test.right]) (h : test.left.Writable d ∧ test.right.Writable d) :
    s.Writable d where
  target := by simp [ht]
  exprs := by simpa [he] using h

def Program.Writable (d : Dialect) (p : Program) : Prop :=
  ∀ s ∈ p.parts, s.Writable d

def Token.Kind.Writable (d : Dialect) : Kind → Prop
  | ident x => d.IsName x
  | number v => 0 ≤ v
  | _ => True

namespace Token.Lexer

variable {d : Dialect} {p : Nat} {c : Char} {cs rest : List Char} {l : Lexeme}

theorem word_writable (hc : isWordChar c) : (word d c rest).kind.Writable d := by
  have hletters : (c :: rest.takeWhile isWordChar).all isWordChar := by
    simp [hc, List.all_takeWhile]
  simp only [word, Kind.ofWord]
  split
  case h_1 | h_2 => trivial
  case h_3 heq | h_4 heq =>
    cases d with
    | full => trivial
    | loop => exact ⟨by decide, by decide, by simp [Dialect.reserved, Dialect.hasConditionals]⟩
  case h_5 hvar hwhile hif helse =>
    refine ⟨by simp [String.ext_iff], by simpa using hletters, ?_⟩
    cases d <;> simp_all [Dialect.reserved, Dialect.hasConditionals]

theorem number_writable (h : number p c rest = .ok l) : l.kind.Writable d := by
  simp only [number] at h
  split at h
  case isTrue hle =>
    cases h
    simp only [Kind.Writable]
    rw [Int32.le_iff_toInt_le, Int32.toInt_ofNat_of_lt (by simp only [maxLiteral] at hle; omega)]
    exact Int.natCast_nonneg _
  case isFalse => cases h

theorem writable_of_isMark {k : Kind} (h : k.isMark) : k.Writable d := by
  cases k <;> trivial

theorem first_writable (h : first d p c rest = .ok l) : l.kind.Writable d := by
  unfold first at h
  split at h
  case isTrue hc => cases h; exact word_writable hc
  case isFalse =>
    split at h
    case isTrue => exact number_writable h
    case isFalse => exact writable_of_isMark (isMark_of_symbol h)

theorem scan_writable {ts : List Token} (h : scan d p cs = .ok ts) :
    ∀ t ∈ ts, t.kind.Writable d := by
  fun_induction scan d p cs generalizing ts with
  | case1 => cases h; simp [Kind.Writable]
  | case2 p c rest hc ih => exact ih h
  | case3 => cases h
  | case4 => cases h
  | case5 p c rest hc l hl hlength us hus ih =>
    cases h
    simpa using ⟨first_writable hl, ih hus⟩

theorem exists_eof_of_scan {ts : List Token} (h : scan d p cs = .ok ts) :
    ∃ t ∈ ts, t.kind = .eof := by
  fun_induction scan d p cs generalizing ts with
  | case1 => cases h; simp
  | case2 p c rest hc ih => exact ih h
  | case3 => cases h
  | case4 => cases h
  | case5 p c rest hc l hl hlength us hus ih =>
    cases h
    have ⟨t, ht, hk⟩ := ih hus
    exact ⟨t, List.mem_cons_of_mem _ ht, hk⟩

end Token.Lexer

namespace Grammar

variable {d : Dialect}

theorem fold_writable {e : Expr} {links : List Link} (he : e.Writable d)
    (hl : ∀ l ∈ links, l.tree.Writable d) : (fold e links).Writable d := by
  induction links generalizing e with
  | nil => exact he
  | cons l links ih => exact ih ⟨he, hl l (by simp)⟩ fun l hl' => hl l (by simp [hl'])

theorem Derives.writable {level : Level} {ks : List Kind} {e : Expr} (h : Derives level ks e)
    (hk : ∀ k ∈ ks, k.Writable d) : e.Writable d := by
  induction h with
  | number v => exact hk (.number v) (by simp)
  | name x => exact hk (.ident x) (by simp)
  | parens inner ih => exact ih fun k h => hk k (by simp [h])
  | term first ops rest ih ihs | arith first ops rest ih ihs =>
    refine fold_writable (ih fun k h => hk k (by simp [h])) fun l hl => ihs l hl fun k h => ?_
    exact hk k (List.mem_append_right _ (List.mem_flatMap.mpr ⟨l, hl, by simp [Link.spelled, h]⟩))

theorem Condition.writable {ks : List Kind} {c : Cond} (h : Condition ks c)
    (hk : ∀ k ∈ ks, k.Writable d) : c.left.Writable d ∧ c.right.Writable d := by
  cases h with
  | mk rel left right =>
    have hl := left.writable fun k h => hk k (by simp [h])
    have hr := right.writable fun k h => hk k (by simp [h])
    exact ⟨hl, hr⟩

mutual

theorem statement_writable {ks : List Kind} {s : Stmt} (h : Statement d ks s)
    (hk : ∀ k ∈ ks, k.Writable d) : ∀ t ∈ s.parts, t.Writable d := by
  cases h with
  | declare x value | assign x value =>
    have hx : d.IsName x := hk (.ident x) (by simp)
    have he := value.writable fun k h => hk k (by simp [h])
    simpa [Stmt.parts] using Stmt.Writable.mk (by simpa [Stmt.target?]) (by simpa [Stmt.exprs])
  | loop condition body =>
    have hc := Condition.writable condition fun k h => hk k (by simp [h])
    have hb := statements_writable body fun k h => hk k (by simp [h])
    simpa [Stmt.parts] using ⟨Stmt.writable_of_test rfl rfl hc, hb⟩
  | branch has condition consequent =>
    have hc := Condition.writable condition fun k h => hk k (by simp [h])
    have ht := statements_writable consequent fun k h => hk k (by simp [h])
    simpa [Stmt.parts] using ⟨Stmt.writable_of_test rfl rfl hc, ht⟩
  | branchElse has condition consequent alternate =>
    have hc := Condition.writable condition fun k h => hk k (by simp [h])
    have ht := statements_writable consequent fun k h => hk k (by simp [h])
    have hf := statements_writable alternate fun k h => hk k (by simp [h])
    simpa [Stmt.parts, or_imp, forall_and] using ⟨Stmt.writable_of_test rfl rfl hc, ht, hf⟩

theorem statements_writable {ks : List Kind} {p : Program} (h : Statements d ks p)
    (hk : ∀ k ∈ ks, k.Writable d) : p.Writable d := by
  cases h with
  | nil => simp [Program.Writable, Program.parts]
  | cons head tail =>
    have hs := statement_writable head fun k h => hk k (by simp [h])
    have hp := statements_writable tail fun k h => hk k (by simp [h])
    simpa [Program.Writable, Program.parts, or_imp, forall_and] using ⟨hs, hp⟩

end

end Grammar

namespace Dialect

variable {d : Dialect} {text : String} {p : Program}

theorem parse_of_tokens {ts : List Token} (h : d.tokens text = .ok ts) :
    d.parse text = (d.parseTokens ts).mapError .parse := by
  simp only [parse, read, h]
  cases d.parseTokens ts <;> rfl

-- A program is read from a text when the grammar derives it from the kinds of the tokens.
theorem parse_eq_ok_iff :
    d.parse text = .ok p ↔ ∃ ts, d.tokens text = .ok ts ∧ Statements d (kinds ts) p := by
  cases ht : d.tokens text with
  | error e => simp [parse, read, ht, bind_eq_ok, -bind_pure_comp]
  | ok ts =>
    have hp := parseTokens_eq_ok_iff (d := d) (p := p) (Lexer.exists_eof_of_scan ht)
    rw [parse_of_tokens ht, mapError_eq_ok, hp]
    simp

theorem writable_of_parse (h : d.parse text = .ok p) : p.Writable d := by
  have ⟨ts, ht, hp⟩ := parse_eq_ok_iff.mp h
  refine statements_writable hp fun k hk => ?_
  have ⟨t, hmem, hkind⟩ := List.mem_map.mp hk
  exact hkind ▸ Lexer.scan_writable ht t (List.takeWhile_subset _ hmem)

end Dialect

end Imp
