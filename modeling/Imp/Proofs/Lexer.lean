import Imp.Proofs.Digits
import Imp.Source

/-!
Which tokens a text has, from what is at its head and what follows it.
-/

namespace Imp

-- Neither a word nor a number, nor the end of input.
def Token.Kind.isMark : Kind → Bool
  | varWord | whileWord | ifWord | elseWord | ident _ | number _ | eof => false
  | _ => true

namespace Token.Lexer

variable {d : Dialect} {c : Char} {cs w : List Char} {k : Kind} {ks : List Kind}

-- The kinds of the tokens of a text, wherever it starts, without the end of input.
def Lexes (d : Dialect) (cs : List Char) (ks : List Kind) : Prop :=
  ∀ p, ∃ ts q, scan d p cs = .ok (ts ++ [⟨.eof, q⟩]) ∧ ts.map Token.kind = ks

-- A text that does not go on with a word or a number.
def Breaks (cs : List Char) : Prop :=
  ∀ c ∈ cs.head?, ¬isWordChar c ∧ ¬c.isDigit

theorem Breaks.nil : Breaks [] :=
  nofun

theorem Breaks.cons (hc : ¬isWordChar c ∧ ¬c.isDigit) : Breaks (c :: cs) := by
  simpa [Breaks] using hc

theorem not_isBlank_of_isWordChar (h : isWordChar c) : ¬isBlank c := by
  intro hb
  simp only [isBlank, Bool.or_eq_true, decide_eq_true_eq] at hb
  rcases hb with (((rfl | rfl) | rfl) | rfl) | rfl <;> revert h <;> decide

theorem not_isBlank_of_isDigit (h : c.isDigit) : ¬isBlank c := by
  intro hb
  simp only [isBlank, Bool.or_eq_true, decide_eq_true_eq] at hb
  rcases hb with (((rfl | rfl) | rfl) | rfl) | rfl <;> revert h <;> decide

theorem not_isWordChar_of_isDigit (h : c.isDigit) : ¬isWordChar c := by
  intro hw
  delta isWordChar Char.isAlpha Char.isUpper Char.isLower at hw
  delta Char.isDigit at h
  simp only [Bool.or_eq_true, Bool.and_eq_true, decide_eq_true_eq] at h hw
  rcases hw with (hw | hw) | rfl
  case inl.inl => exact absurd (UInt32.le_trans hw.1 h.2) (by decide)
  case inl.inr => exact absurd (UInt32.le_trans hw.1 h.2) (by decide)
  case inr => revert h; decide

theorem isMark_of_mark? (h : mark? c = some k) : k.isMark := by
  unfold mark? at h
  split at h <;> cases h <;> rfl

theorem isMark_of_beforeEquals? {o : Option Kind} (h : beforeEquals? c = some (o, k)) :
    k.isMark ∧ ∀ k' ∈ o, k'.isMark := by
  unfold beforeEquals? at h
  split at h <;> cases h <;> exact ⟨rfl, by rintro _ ⟨⟩ <;> rfl⟩

theorem isMark_of_symbol {p : Nat} {rest : List Char} {l : Lexeme}
    (h : symbol p c rest = .ok l) : l.kind.isMark := by
  unfold symbol at h
  split at h
  case h_1 k hk =>
    cases h
    exact isMark_of_mark? hk
  case h_2 =>
    split at h
    case h_1 o k rest ho =>
      cases h
      exact (isMark_of_beforeEquals? ho).1
    case h_2 k k' ho _ =>
      cases h
      exact (isMark_of_beforeEquals? ho).2 k rfl
    case h_3 => cases h

theorem scan_of_error {p : Nat} {rest : List Char} {e : LexError} (hc : ¬isBlank c)
    (he : first d p c rest = .error e) : scan d p (c :: rest) = .error e := by
  rw [scan, if_neg hc]
  split
  case h_1 e' he' => rw [Except.error.inj (he'.symm.trans he)]
  case h_2 l hl => cases he.symm.trans hl

theorem scan_of_first {p : Nat} {rest : List Char} {l : Lexeme} (hc : ¬isBlank c)
    (hl : first d p c rest = .ok l) :
    scan d p (c :: rest) =
      (scan d (p + l.text.length) l.rest).map fun ts => ⟨l.kind, p⟩ :: ts := by
  rw [scan, if_neg hc]
  split
  case h_1 e he => cases he.symm.trans hl
  case h_2 l' hl' =>
    obtain rfl := Except.ok.inj (hl'.symm.trans hl)
    cases scan d (p + l'.text.length) l'.rest <;> rfl

section First

variable {p n : Nat}

theorem first_word (hw : ∀ c' ∈ c :: w, isWordChar c') (hcs : ∀ c' ∈ cs.head?, ¬isWordChar c') :
    first d p c (w ++ cs) = .ok ⟨.ofWord d (String.ofList (c :: w)), c :: w, cs⟩ := by
  have ⟨hc, hw⟩ := List.forall_mem_cons.mp hw
  have ⟨htake, hdrop⟩ := takeWhile_append_eq hw hcs
  simp [first, hc, word, htake, hdrop]

theorem first_number (hw : ∀ c' ∈ c :: w, c'.isDigit) (hn : Nat.ofDigitChars 10 (c :: w) 0 = n)
    (hle : n ≤ maxLiteral) (hcs : ∀ c' ∈ cs.head?, ¬c'.isDigit) :
    first d p c (w ++ cs) = .ok ⟨.number (Int32.ofNat n), c :: w, cs⟩ := by
  have ⟨hc, hw⟩ := List.forall_mem_cons.mp hw
  have ⟨htake, hdrop⟩ := takeWhile_append_eq hw hcs
  simp [first, not_isWordChar_of_isDigit hc, hc, number, htake, hdrop, hn, hle]

theorem not_wordChar_of_mark? (hm : mark? c = some k) :
    ¬isBlank c ∧ ¬isWordChar c ∧ ¬c.isDigit := by
  unfold mark? at hm
  split at hm
  case h_9 => simp at hm
  all_goals decide

theorem not_wordChar_of_beforeEquals? {o : Option Kind × Kind} (hc : beforeEquals? c = some o) :
    ¬isBlank c ∧ ¬isWordChar c ∧ ¬c.isDigit ∧ mark? c = none := by
  unfold beforeEquals? at hc
  split at hc
  case h_5 => simp at hc
  all_goals decide

-- A mark that nothing can lengthen.
theorem first_mark (hm : mark? c = some k) : first d p c cs = .ok ⟨k, [c], cs⟩ := by
  have ⟨_, hword, hdigit⟩ := not_wordChar_of_mark? hm
  simp [first, hword, hdigit, symbol, hm]

-- A mark that `=` would lengthen, before something else.
theorem first_short {k' : Kind} (hc : beforeEquals? c = some (some k, k'))
    (hcs : cs.head? ≠ some '=') : first d p c cs = .ok ⟨k, [c], cs⟩ := by
  have ⟨_, hword, hdigit, hmark⟩ := not_wordChar_of_beforeEquals? hc
  simp only [first, hword, hdigit, symbol, hmark, hc]
  cases cs with
  | nil => rfl
  | cons c' cs =>
    have hne : c' ≠ '=' := fun heq => hcs (by simp [heq])
    simp [hne]

theorem first_long {k' : Option Kind} (hc : beforeEquals? c = some (k', k)) :
    first d p c ('=' :: cs) = .ok ⟨k, [c, '='], cs⟩ := by
  have ⟨_, hword, hdigit, hmark⟩ := not_wordChar_of_beforeEquals? hc
  simp [first, hword, hdigit, symbol, hmark, hc]

end First

namespace Lexes

theorem nil : Lexes d [] [] :=
  fun p => ⟨[], p, by simp [scan], rfl⟩

theorem blank (hc : isBlank c) (h : Lexes d cs ks) : Lexes d (c :: cs) ks := by
  intro p
  have ⟨ts, q, hts, hks⟩ := h (p + 1)
  exact ⟨ts, q, by rw [scan, if_pos hc, hts], hks⟩

theorem lexeme {rest : List Char} {l : Lexeme} (hc : ¬isBlank c)
    (hl : ∀ p, first d p c rest = .ok l) (h : Lexes d l.rest ks) :
    Lexes d (c :: rest) (l.kind :: ks) := by
  intro p
  have ⟨ts, q, hts, hks⟩ := h (p + l.text.length)
  exact ⟨⟨l.kind, p⟩ :: ts, q, by rw [scan_of_first hc (hl p), hts]; rfl, by simp [hks]⟩

theorem word (hw : w ≠ []) (hl : w.all isWordChar) (hb : Breaks cs) (h : Lexes d cs ks) :
    Lexes d (w ++ cs) (.ofWord d (String.ofList w) :: ks) := by
  cases w with
  | nil => exact (hw rfl).elim
  | cons c w =>
    have hl := List.all_eq_true.mp hl
    have hfirst := fun p => first_word (d := d) (p := p) hl fun c hc => (hb c hc).1
    exact lexeme (not_isBlank_of_isWordChar (hl c (by simp))) hfirst h

theorem number {n : Nat} (hn : n ≤ maxLiteral) (hb : Breaks cs) (h : Lexes d cs ks) :
    Lexes d (Nat.toDigits 10 n ++ cs) (.number (Int32.ofNat n) :: ks) := by
  have hdigits := @isDigit_of_mem_toDigits n
  have hvalue := @Nat.ofDigitChars_ten_toDigits n
  cases hw : Nat.toDigits 10 n with
  | nil => exact (Nat.toDigits_ne_nil hw).elim
  | cons c w =>
    rw [hw] at hdigits hvalue
    have hfirst := fun p =>
      first_number (d := d) (p := p) hdigits hvalue hn fun c hc => (hb c hc).2
    exact lexeme (not_isBlank_of_isDigit (hdigits c (by simp))) hfirst h

theorem mark (hm : mark? c = some k) (h : Lexes d cs ks) : Lexes d (c :: cs) (k :: ks) :=
  lexeme (not_wordChar_of_mark? hm).1 (fun _ => first_mark hm) h

theorem short {k' : Kind} (hc : beforeEquals? c = some (some k, k')) (hcs : cs.head? ≠ some '=')
    (h : Lexes d cs ks) : Lexes d (c :: cs) (k :: ks) :=
  lexeme (not_wordChar_of_beforeEquals? hc).1 (fun _ => first_short hc hcs) h

theorem long {k' : Option Kind} (hc : beforeEquals? c = some (k', k)) (h : Lexes d cs ks) :
    Lexes d (c :: '=' :: cs) (k :: ks) :=
  lexeme (not_wordChar_of_beforeEquals? hc).1 (fun _ => first_long hc) h

theorem operator (op : Operator) (h : Lexes d cs ks) :
    Lexes d (op.symbol.toList ++ cs) (.operator op :: ks) := by
  cases op <;> exact mark rfl h

theorem relation (rel : Relation) (hcs : cs.head? ≠ some '=') (h : Lexes d cs ks) :
    Lexes d (rel.symbol.toList ++ cs) (.relation rel :: ks) := by
  cases rel
  case gt | lt => exact short rfl hcs h
  case ge | le | eq | ne => exact long rfl h

end Lexes

end Token.Lexer

end Imp
