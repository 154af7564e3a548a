import Imp.Json.Draft
import Imp.Proofs.Digits
import Mathlib.Data.List.Chain

/-!
The grammar of lexemes: how strings, numbers and words are written, with blanks between them. A text
is read as the lexemes that it is written for.
-/

namespace Imp

namespace Json

open Lexeme

-- What stands for a character inside of a string.
inductive CharText : Char → List Char → Prop
  | raw {c} (not_quote : c ≠ '"') (not_slash : c ≠ '\\') (not_control : ¬c.toNat < 32) :
      CharText c [c]
  | escaped {c e} (escaped : escaped? e = some c) : CharText c ['\\', e]
  | unit {c x₁ x₂ x₃ x₄} (unit : hex4? x₁ x₂ x₃ x₄ = some c.toNat) :
      CharText c ['\\', 'u', x₁, x₂, x₃, x₄]
  | pair {u v x₁ x₂ x₃ x₄ y₁ y₂ y₃ y₄} (first : hex4? x₁ x₂ x₃ x₄ = some u) (high : isHigh u)
      (second : hex4? y₁ y₂ y₃ y₄ = some v) (low : isLow v) :
      CharText (Char.ofNat (0x10000 + (u - 0xd800) * 0x400 + (v - 0xdc00)))
        ['\\', 'u', x₁, x₂, x₃, x₄, '\\', 'u', y₁, y₂, y₃, y₄]

-- The text of a string behind its first quote.
inductive StringText : List Char → List Char → Prop
  | nil : StringText [] ['"']
  | cons {c cs t ts} (head : CharText c t) (tail : StringText cs ts) :
      StringText (c :: cs) (t ++ ts)

-- At least one digit.
structure Digits (ds : List Char) : Prop where
  ne_nil : ds ≠ []
  isDigit : ∀ c ∈ ds, c.isDigit

inductive FractionText : List Char → List Char → Prop
  | absent : FractionText [] []
  | digits {ds} (digits : Digits ds) : FractionText ds ('.' :: ds)

inductive SignText : Int → List Char → Prop
  | absent : SignText 1 []
  | plus : SignText 1 ['+']
  | minus : SignText (-1) ['-']

inductive ExponentText : Int → List Char → Prop
  | absent : ExponentText 0 []
  | digits {e σ s ds} (mark : e = 'e' ∨ e = 'E') (sign : SignText σ s) (digits : Digits ds) :
      ExponentText (σ * Nat.ofDigitChars 10 ds 0) (e :: (s ++ ds))

inductive NumberText : Numeral → List Char → Prop
  | mk {negative ds fs f n e} (digits : Digits ds) (isWhole : isWhole ds)
      (fraction : FractionText fs f) (exponent : ExponentText n e) :
      NumberText (numeral negative (isReal (f ++ e)) ds fs n)
        ((if negative then ['-'] else []) ++ (ds ++ (f ++ e)))

inductive LexemeText : Lexeme → List Char → Prop
  | openArr : LexemeText .openArr ['[']
  | closeArr : LexemeText .closeArr [']']
  | openObj : LexemeText .openObj ['\x7b']
  | closeObj : LexemeText .closeObj ['\x7d']
  | comma : LexemeText .comma [',']
  | colon : LexemeText .colon [':']
  | null : LexemeText (.scalar .null) ['n', 'u', 'l', 'l']
  | wordTrue : LexemeText (.scalar (.bool true)) ['t', 'r', 'u', 'e']
  | wordFalse : LexemeText (.scalar (.bool false)) ['f', 'a', 'l', 's', 'e']
  | num {v t} (number : NumberText v t) : LexemeText (.scalar (.num v)) t
  | str {s : String} {t} (string : StringText s.toList t) :
      LexemeText (.scalar (.str (some s))) ('"' :: t)

-- The text of lexemes, with any blanks between them and around them.
inductive Texts : List Lexeme → List Char → Prop
  | nil : Texts [] []
  | blank {c ls cs} (blank : isBlank c) (rest : Texts ls cs) : Texts ls (c :: cs)
  | cons {l ls t cs} (head : LexemeText l t) (tail : Texts ls cs) : Texts (l :: ls) (t ++ cs)

-- Lexemes that close a bracket, or go on with the next value or field.
def Lexeme.IsMark (l : Lexeme) : Prop :=
  l = closeArr ∨ l = closeObj ∨ l = comma ∨ l = colon

-- Scalars do not follow each other directly.
def Parted (ls : List Lexeme) : Prop :=
  ls.IsChain fun l l' => (∃ v, l = .scalar v) → l'.IsMark

section Strings

variable {c e : Char} {cs t : List Char} {us : List Nat}

theorem units?_escaped (he : escaped? e = some c) (hu : e ≠ 'u') (cs : List Char) :
    units? ('\\' :: e :: cs) = (units? cs).map fun (us, rest) => (c.toNat :: us, rest) := by
  rw [units?, he]
  case x_1 => intros; simp_all
  cases units? cs <;> rfl

theorem units?_raw (hquote : c ≠ '"') (hslash : c ≠ '\\') (hc : ¬c.toNat < 32) (cs : List Char) :
    units? (c :: cs) = (units? cs).map fun (us, rest) => (c.toNat :: us, rest) := by
  rw [units?]
  case x_1 => exact hquote
  case x_2 | x_3 => intros; exact absurd ‹_› hslash
  have : (c = '\\' || c.toNat < 32) = false := by simp [hslash, hc]
  rw [this]
  cases units? cs <;> rfl

theorem units?_unit {a b c d : Char} {u : Nat} (h : hex4? a b c d = some u) (cs : List Char) :
    units? ('\\' :: 'u' :: a :: b :: c :: d :: cs) =
      (units? cs).map fun (us, rest) => (u :: us, rest) := by
  rw [units?, h]
  cases units? cs <;> rfl

-- No character is a surrogate.
theorem not_surrogate (c : Char) : isHigh c.toNat = false ∧ isLow c.toNat = false := by
  have hvalid := c.valid
  have htoNat : c.toNat = c.val.toNat := rfl
  simp only [UInt32.isValidChar, Nat.isValidChar] at hvalid
  simp only [isHigh, isLow]
  grind

theorem chars?_cons (c : Char) (us : List Nat) :
    chars? (c.toNat :: us) = (chars? us).map (c :: ·) := by
  have ⟨hhigh, hlow⟩ := not_surrogate c
  rw [chars?.eq_def]
  simp [hhigh, hlow]

theorem CharText.exists_units (h : CharText c t) : ∃ us,
    (∀ cs, units? (t ++ cs) = (units? cs).map fun (vs, rest) => (us ++ vs, rest)) ∧
      ∀ vs, chars? (us ++ vs) = (chars? vs).map (c :: ·) := by
  cases h with
  | raw hquote hslash hc => exact ⟨[c.toNat], units?_raw hquote hslash hc, chars?_cons c⟩
  | escaped he =>
    refine ⟨[c.toNat], units?_escaped he ?_, chars?_cons c⟩
    rintro rfl
    nomatch he
  | unit hu => exact ⟨[c.toNat], units?_unit hu, chars?_cons c⟩
  | @pair u v _ _ _ _ _ _ _ _ hu hhigh hv hlow =>
    refine ⟨[u, v], fun cs => ?_, fun vs => ?_⟩
    case refine_1 =>
      simp only [List.cons_append, List.nil_append, units?_unit hu, units?_unit hv, Option.map_map]
      rfl
    case refine_2 =>
      rw [List.cons_append, List.cons_append, List.nil_append, chars?.eq_def]
      simp [hhigh, hlow]

theorem StringText.string? {s : String} (h : StringText s.toList t) (rest : List Char) :
    string? (t ++ rest) = some (.scalar (.str (some s)), rest) := by
  have hunits : ∀ {cs t}, StringText cs t →
      ∃ us, units? (t ++ rest) = some (us, rest) ∧ chars? us = some cs := by
    intro cs t h
    induction h with
    | nil => exact ⟨[], by simp [units?], rfl⟩
    | cons hc _ ih =>
      obtain ⟨us, hus, hchars⟩ := hc.exists_units
      obtain ⟨vs, hvs, hrest⟩ := ih
      refine ⟨us ++ vs, ?_, ?_⟩
      case refine_1 => rw [List.append_assoc, hus, hvs, Option.map_some]
      case refine_2 => rw [hchars, hrest, Option.map_some]
  obtain ⟨us, hus, hchars⟩ := hunits h
  simp [Lexeme.string?, hus, hchars]

end Strings

section Numbers

variable {cs ds f e t : List Char} {n : Int} {v : Numeral} {c : Char}

-- A text that a number does not run on into.
def Ends (cs : List Char) : Prop :=
  ∀ c ∈ cs.head?, ¬c.isDigit ∧ c ≠ '.' ∧ c ≠ 'e' ∧ c ≠ 'E'

theorem fraction?_of_ends (hcs : Ends cs) : fraction? cs = some ([], cs) := by
  unfold fraction?
  split
  case h_1 => exact absurd rfl (hcs '.' rfl).2.1
  case h_2 => rfl

theorem exponent?_of_ends (hcs : Ends cs) : Decimal.exponent? cs = some (0, cs) := by
  cases cs with
  | nil => rfl
  | cons c cs =>
    have ⟨_, _, he, hE⟩ := hcs c rfl
    simp [Decimal.exponent?, he, hE]

theorem not_isReal_of_ends (hcs : Ends cs) : isReal cs = false := by
  cases cs with
  | nil => rfl
  | cons c cs =>
    have ⟨_, hp, he, hE⟩ := hcs c rfl
    simp [isReal, hp, he, hE]

-- A text whose first character is no digit.
def StartsApart (cs : List Char) : Prop :=
  ∀ c ∈ cs.head?, ¬c.isDigit

theorem Digits.takeWhile (h : Digits ds) (hcs : StartsApart cs) :
    (ds ++ cs).takeWhile Char.isDigit = ds ∧ (ds ++ cs).dropWhile Char.isDigit = cs :=
  takeWhile_append_eq h.isDigit hcs

theorem startsApart_of_ends (h : Ends cs) : StartsApart cs := fun c hc => (h c hc).1

theorem SignText.sign_eq {σ : Int} (h : SignText σ t) (hds : Digits ds) (cs : List Char) :
    Decimal.sign (t ++ (ds ++ cs)) = (σ, ds ++ cs) := by
  cases h with
  | absent =>
    obtain ⟨d, ds, rfl⟩ := List.exists_cons_of_ne_nil hds.ne_nil
    have hd := hds.isDigit d List.mem_cons_self
    have hne : d ≠ '-' ∧ d ≠ '+' := by constructor <;> rintro rfl <;> nomatch hd
    simp [Decimal.sign, hne]
  | plus | minus => rfl

theorem ExponentText.startsApart (h : ExponentText n e) (hcs : Ends cs) :
    StartsApart (e ++ cs) := by
  cases h with
  | absent => exact startsApart_of_ends hcs
  | digits hmark _ _ =>
    rintro _ ⟨⟩
    obtain rfl | rfl := hmark <;> decide

theorem ExponentText.exponent?_eq (h : ExponentText n e) (hcs : Ends cs) :
    Decimal.exponent? (e ++ cs) = some (n, cs) := by
  cases h with
  | absent => exact exponent?_of_ends hcs
  | @digits c σ s ds hmark hsign hdigits =>
    have ⟨htake, hdrop⟩ := hdigits.takeWhile (startsApart_of_ends hcs)
    have hsign := hsign.sign_eq hdigits cs
    have hempty : ds.isEmpty = false := by simpa using hdigits.ne_nil
    simp [Decimal.exponent?, hmark, hsign, htake, hdrop, hempty]

theorem FractionText.startsApart (h : FractionText ds f) (he : ExponentText n e) (hcs : Ends cs) :
    StartsApart (f ++ (e ++ cs)) := by
  cases h with
  | absent => exact he.startsApart hcs
  | digits =>
    rintro _ ⟨⟩
    decide

theorem FractionText.fraction?_eq (h : FractionText ds f) (he : ExponentText n e) (hcs : Ends cs) :
    fraction? (f ++ (e ++ cs)) = some (ds, e ++ cs) := by
  cases h with
  | absent =>
    cases he with
    | absent => exact fraction?_of_ends hcs
    | digits hmark => obtain rfl | rfl := hmark <;> rfl
  | digits hdigits =>
    have ⟨htake, hdrop⟩ := hdigits.takeWhile (he.startsApart hcs)
    have hempty : ds.isEmpty = false := by simpa using hdigits.ne_nil
    simp [fraction?, htake, hdrop, hempty]

theorem isReal_append (hcs : Ends cs) (ds : List Char) : isReal (ds ++ cs) = isReal ds := by
  cases ds with
  | nil => exact not_isReal_of_ends hcs
  | cons d ds => rfl

theorem not_isBlank_of_isDigit (h : c.isDigit) : isBlank c = false := by
  have : ∀ b ∈ [' ', '\n', '\r', '\t'], b.isDigit = false := by simp
  grind [isBlank]

theorem first?_digit (hc : c.isDigit) : first? c cs = number? false (c :: cs) := by
  unfold first?
  split
  case h_12 => rfl
  all_goals exact absurd hc (by decide)

theorem NumberText.first? (h : NumberText v t) (hcs : Ends cs) : ∃ c cs', t ++ cs = c :: cs' ∧
    isBlank c = false ∧ first? c cs' = some (.scalar (.num v), cs) := by
  cases h with
  | @mk negative ds fs f n e hdigits hwhole hfraction hexponent =>
    have ⟨htake, hdrop⟩ := hdigits.takeWhile (hfraction.startsApart hexponent hcs)
    have hreal : isReal (f ++ (e ++ cs)) = isReal (f ++ e) := by
      rw [← List.append_assoc, isReal_append hcs]
    have hnumber : number? negative (ds ++ (f ++ (e ++ cs))) =
        some (.scalar (.num (numeral negative (isReal (f ++ e)) ds fs n)), cs) := by
      simp [number?, htake, hdrop, hfraction.fraction?_eq hexponent hcs,
        hexponent.exponent?_eq hcs, hwhole, hreal]
    cases negative with
    | true => exact ⟨'-', _, by simp, rfl, hnumber⟩
    | false =>
      obtain ⟨d, ds, rfl⟩ := List.exists_cons_of_ne_nil hdigits.ne_nil
      have hd := hdigits.isDigit d List.mem_cons_self
      exact ⟨d, ds ++ (f ++ (e ++ cs)), by simp, not_isBlank_of_isDigit hd,
        (first?_digit hd).trans hnumber⟩

end Numbers

section Texts

variable {c : Char} {l : Lexeme} {ls : List Lexeme} {t cs rest : List Char}

theorem all_cons (hc : isBlank c = false) (hl : first? c cs = some (l, rest)) :
    all (c :: cs) = l :: all rest := by
  rw [all, if_neg (by simp [hc])]
  split
  case h_1 h => simp [hl] at h
  case h_2 h => simp_all

-- What a lexeme is written as does not run on into what is behind it.
theorem LexemeText.all_append (h : LexemeText l t) (hcs : ∀ v, l = .scalar (.num v) → Ends cs) :
    all (t ++ cs) = l :: all cs := by
  cases h with
  | num hnumber =>
    obtain ⟨c, cs', heq, hblank, hfirst⟩ := hnumber.first? (hcs _ rfl)
    rw [heq]
    exact all_cons hblank hfirst
  | str hstring => exact all_cons rfl (hstring.string? cs)
  | _ => exact all_cons rfl rfl

theorem ends_blank {c : Char} (hc : isBlank c) : Ends (c :: cs) := by
  rintro _ ⟨⟩
  simp only [isBlank, Bool.or_eq_true, decide_eq_true_eq] at hc
  rcases hc with ((rfl | rfl) | rfl) | rfl <;> decide

theorem LexemeText.ends (h : LexemeText l t) (hl : l.IsMark) : Ends (t ++ cs) := by
  obtain rfl | rfl | rfl | rfl := hl <;> cases h <;> rintro _ ⟨⟩ <;> decide

theorem Texts.blanks {ws : List Char} (hws : ∀ c ∈ ws, isBlank c) (h : Texts ls cs) :
    Texts ls (ws ++ cs) := by
  induction ws with
  | nil => exact h
  | cons c ws ih =>
    have ⟨hc, hws⟩ := List.forall_mem_cons.mp hws
    exact .blank hc (ih hws)

theorem Texts.ends (h : Texts ls cs) (hls : ∀ l ∈ ls.head?, l.IsMark) : Ends cs := by
  cases h with
  | nil => exact nofun
  | blank hc _ => exact ends_blank hc
  | cons hl _ => exact hl.ends (hls _ rfl)

theorem Texts.all_eq (h : Texts ls cs) (hls : Parted ls) : all cs = ls := by
  induction h with
  | nil => simp [all]
  | blank hc _ ih => rw [all, if_pos hc, ih hls]
  | @cons l ls t cs hl hcs ih =>
    obtain ⟨hhead, htail⟩ := List.isChain_cons.mp hls
    rw [hl.all_append fun v hv => hcs.ends fun l' hl' => hhead l' hl' ⟨_, hv⟩, ih htail]

end Texts

end Json

end Imp
