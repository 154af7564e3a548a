import Imp.Proofs.Tiling

/-!
A source without tokens is refused at its first fault.

All that stands in front of the fault has tokens: a lexeme that is found in the source is also found
where the source ends earlier, behind the lexeme.
-/

namespace Imp

open Token Token.Lexer

namespace LexError

def position : LexError → Nat
  | unexpected p _ | outOfRange p _ => p

-- What an error says of the text from its place on, where some text stands in front of it. A number
-- is all of the digits there.
inductive Reports (front : List Char) : LexError → List Char → Prop
  | unexpected {p : Nat} {c : Char} {rest : List Char}
      (blank : c ∉ [' ', '\t', '\n', '\x0c', '\r']) (letter : ¬c.isAlpha) (underscore : c ≠ '_')
      (digit : ¬c.isDigit) (mark : c ∉ ['+', '-', '*', ';', '(', ')', '\x7b', '\x7d'])
      (equals : c ∉ ['=', '<', '>']) (different : ¬(c = '!' ∧ rest.head? = some '=')) :
      Reports front (.unexpected p c) (c :: rest)
  | outOfRange {p : Nat} {ds rest : List Char} (nonempty : ds ≠ []) (digits : ds.all Char.isDigit)
      (starts : ∀ c ∈ front.getLast?, ¬c.isDigit) (ends : ∀ c ∈ rest.head?, ¬c.isDigit)
      (exceeds : 2147483647 < Nat.ofDigitChars 10 ds 0) :
      Reports front (.outOfRange p (String.ofList ds)) (ds ++ rest)

end LexError

namespace Token.Lexer

variable {d : Dialect} {p : Nat} {c : Char} {cs front rest : List Char} {l : Lexeme} {e : LexError}

theorem first_error_cases (h : first d p c rest = .error e) :
    ¬isWordChar c ∧ ¬c.isDigit ∧ e = .unexpected p c ∨
      c.isDigit ∧ number p c rest = .error e := by
  unfold first at h
  split at h
  case isTrue => cases h
  case isFalse hword =>
    split at h
    case isTrue hdigit => exact .inr ⟨hdigit, h⟩
    case isFalse hdigit =>
      refine .inl ⟨hword, hdigit, ?_⟩
      unfold symbol at h
      split at h
      case h_1 => cases h
      case h_2 =>
        split at h
        case h_1 | h_2 => cases h
        case h_3 => exact (Except.error.inj h).symm

theorem not_mark_of_first_error (h : first d p c rest = .error e) :
    c ∉ ['+', '-', '*', ';', '(', ')', '\x7b', '\x7d'] ∧ c ∉ ['=', '<', '>'] ∧
      ¬(c = '!' ∧ rest.head? = some '=') := by
  have hmark : ∀ {k}, mark? c ≠ some k := fun hc => by
    cases h.symm.trans (first_mark hc)
  have hlong : ∀ {o k}, beforeEquals? c = some (o, k) → rest.head? ≠ some '=' := fun hc heq => by
    obtain ⟨rest, rfl⟩ := List.head?_eq_some_iff.mp heq
    cases h.symm.trans (first_long hc)
  have hshort : ∀ {k k'}, beforeEquals? c ≠ some (some k, k') := fun hc => by
    cases h.symm.trans (first_short hc (hlong hc))
  refine ⟨fun hmem => ?_, fun hmem => ?_, fun ⟨hc, heq⟩ => ?_⟩
  case refine_1 =>
    have hmarks : ∀ c ∈ ['+', '-', '*', ';', '(', ')', '\x7b', '\x7d'], (mark? c).isSome := by
      simp [mark?]
    have ⟨k, hk⟩ := Option.isSome_iff_exists.mp (hmarks c hmem)
    exact hmark hk
  case refine_2 =>
    have hequals : ∀ c ∈ ['=', '<', '>'], ((beforeEquals? c).bind Prod.fst).isSome := by
      simp [beforeEquals?]
    have ⟨k, hk⟩ := Option.isSome_iff_exists.mp (hequals c hmem)
    obtain ⟨⟨_, k'⟩, hpair, rfl⟩ := Option.bind_eq_some_iff.mp hk
    exact hshort hpair
  case refine_3 =>
    subst hc
    exact hlong rfl heq

-- Where two texts meet, no number goes on.
def Parted (front cs : List Char) : Prop :=
  ∀ c ∈ front.getLast?, c.isDigit → ∀ c' ∈ cs.head?, ¬c'.isDigit

theorem reports_of_first_error (hc : ¬isBlank c) (hfront : Parted front (c :: rest))
    (h : first d p c rest = .error e) : e.position = p ∧ e.Reports front (c :: rest) := by
  obtain ⟨hword, hdigit, rfl⟩ | ⟨hdigit, hnumber⟩ := first_error_cases h
  case inl =>
    have ⟨hmark, hequals, hdifferent⟩ := not_mark_of_first_error h
    simp only [isBlank, isWordChar, Bool.or_eq_true, decide_eq_true_eq, not_or] at hc hword
    have hblank : c ∉ [' ', '\t', '\n', '\x0c', '\r'] := by simpa [and_assoc] using hc
    exact ⟨rfl, .unexpected hblank hword.1 hword.2 hdigit hmark hequals hdifferent⟩
  case inr =>
    simp only [number] at hnumber
    split at hnumber
    case isTrue => cases hnumber
    case isFalse hlt =>
      obtain rfl := Except.error.inj hnumber
      have hrun : c :: rest =
          (c :: rest.takeWhile Char.isDigit) ++ rest.dropWhile Char.isDigit := by simp
      rw [hrun]
      refine ⟨rfl, .outOfRange (by simp) ?_ ?_ not_of_mem_head?_dropWhile (Nat.lt_of_not_le hlt)⟩
      case refine_1 => simp [hdigit, List.all_takeWhile]
      case refine_2 => exact fun c' hc' hd => hfront c' hc' hd c rfl hdigit

theorem eq_number_of_isDigit {k : Kind} {w : String} (h : k.SpelledBy d w) (hc : c ∈ w.toList)
    (hd : c.isDigit) : ∃ v, k = .number v := by
  cases h with
  | number => exact ⟨_, rfl⟩
  | name isName =>
    exact absurd (List.all_eq_true.mp isName.letters c hc) (not_isWordChar_of_isDigit hd)
  | keyword isWord lexeme =>
    have hletters : w.toList.all isWordChar := by
      simp only [List.mem_cons, List.not_mem_nil, or_false] at isWord
      rcases isWord with rfl | rfl | rfl | rfl <;> cases lexeme <;> decide
    exact absurd (List.all_eq_true.mp hletters c hc) (not_isWordChar_of_isDigit hd)
  | mark isMark lexeme =>
    have hmarks : w.toList.all (!·.isDigit) := by
      cases k with
      | operator op => cases op <;> cases lexeme <;> decide
      | relation r => cases r <;> cases lexeme <;> decide
      | varWord | whileWord | ifWord | elseWord | ident | number | eof => cases isMark
      | _ => cases lexeme; decide
    exact absurd (List.all_eq_true.mp hmarks c hc) (by simp [hd])

theorem parted_of_first (h : first d p c rest = .ok l) : Parted (front ++ l.text) l.rest := by
  have ⟨hspelled, hlongest⟩ := spelledBy_of_first h
  intro c' hc' hd
  have hmem : c' ∈ (String.ofList l.text).toList := by
    have hne := (text_append_rest_of_first h).2
    obtain rfl : l.text.getLast hne = c' := by
      simpa [List.getLast?_append, List.getLast?_eq_some_getLast hne] using hc'
    simp
  obtain ⟨v, hv⟩ := eq_number_of_isDigit hspelled hmem hd
  rw [hv] at hlongest
  exact hlongest

-- A lexeme is found as well where the text behind it ends earlier.
theorem first_of_prefix (h : first d p c rest = .ok l) (hfront : front <+: l.rest) :
    ∃ rest', l.text ++ front = c :: rest' ∧ first d p c rest' = .ok { l with rest := front } := by
  have ⟨htext, hne⟩ := text_append_rest_of_first h
  have ⟨hspelled, hlongest⟩ := spelledBy_of_first h
  obtain ⟨c', w, hw⟩ := List.exists_cons_of_ne_nil hne
  obtain rfl : c' = c := (List.cons.inj (hw ▸ htext)).1
  obtain ⟨behind, hbehind⟩ := hfront
  have hcs : ∀ c ∈ front.head?, ¬l.kind.Continues c := fun c hc =>
    hlongest c (by rw [← hbehind, List.head?_append]; simp [Option.mem_def.mp hc])
  have hfirst : (String.ofList l.text).toList ++ front = c' :: (w ++ front) := by simp [hw]
  refine ⟨w ++ front, by simp [hw], ?_⟩
  simpa using (first_of_spelledBy (p := p) hspelled hfirst hcs).2

theorem exists_front_of_scan_error (h : scan d p cs = .error e) (before : List Char)
    (hbefore : Parted before cs) :
    ∃ front rest, cs = front ++ rest ∧ e.position = p + front.length ∧
      (∃ ts, scan d p front = .ok ts) ∧ e.Reports (before ++ front) rest := by
  fun_induction scan d p cs generalizing before with
  | case1 => cases h
  | case2 p c rest hc ih =>
    have hblank : Parted (before ++ [c]) rest := fun c' hc' hd => by
      obtain rfl : c = c' := by simpa using hc'
      exact absurd hc (not_isBlank_of_isDigit hd)
    obtain ⟨front, rest', hrest, hposition, ⟨ts, hts⟩, hreports⟩ := ih h (before ++ [c]) hblank
    refine ⟨c :: front, rest', congrArg _ hrest, ?_, ⟨ts, ?_⟩, ?_⟩
    case refine_1 => rw [hposition, List.length_cons]; omega
    case refine_2 => rw [scan, if_pos hc, hts]
    case refine_3 => simpa using hreports
  | case3 p c rest hc e' he =>
    obtain rfl := Except.error.inj h
    obtain ⟨hposition, hreports⟩ := reports_of_first_error hc hbefore he
    exact ⟨[], c :: rest, rfl, hposition, ⟨_, by rw [scan]⟩, by simpa using hreports⟩
  | case4 p c rest hc l hl hlength e' he ih =>
    obtain rfl := Except.error.inj h
    obtain ⟨front, rest', hrest, hposition, ⟨ts, hts⟩, hreports⟩ :=
      ih he (before ++ l.text) (parted_of_first hl)
    obtain ⟨w, hw, hfirst⟩ := first_of_prefix hl ⟨rest', hrest.symm⟩
    refine ⟨l.text ++ front, rest', ?_, ?_, ⟨⟨l.kind, p⟩ :: ts, ?_⟩, ?_⟩
    case refine_1 => rw [← (text_append_rest_of_first hl).1, hrest, List.append_assoc]
    case refine_2 => rw [hposition, List.length_append, Nat.add_assoc]
    case refine_3 => rw [hw, scan_of_first hc hfirst, hts]; rfl
    case refine_4 => simpa using hreports
  | case5 => cases h

end Token.Lexer

namespace Dialect

variable {d : Dialect} {source : String} {e : LexError}

-- A source is refused at the first fault: the text in front of it has tokens, and what the error
-- says of the text behind is so.
theorem tokens_error_first (h : d.tokens source = .error e) :
    ∃ front rest, source = front ++ rest ∧ e.position = front.utf8ByteSize ∧
      (∃ ts, d.tokens front = .ok ts) ∧ e.Reports front.toList rest.toList := by
  have ⟨front, rest, hsource, hposition, ⟨ts, hts⟩, hreports⟩ :=
    exists_front_of_scan_error h [] (by simp [Parted])
  have hlength : (String.ofList front).utf8ByteSize = front.length := by
    rw [← length_bytes, bytes_eq, String.toList_ofList, (bytes_of_short (short_of_scan hts)).1,
      List.length_map]
  refine ⟨String.ofList front, String.ofList rest, ?_, ?_, ⟨ts, ?_⟩, ?_⟩
  case refine_1 => rw [← String.ofList_append, ← hsource, String.ofList_toList]
  case refine_2 => rw [hposition, hlength, Nat.zero_add]
  case refine_3 => rw [tokens, String.toList_ofList, hts]
  case refine_4 => simpa using hreports

-- A character of several bytes, and digits behind a name.
theorem foreign_error_first :
    (full.tokens "var é" = .error (.unexpected 4 'é') ∧ ∃ front rest, "var é" = front ++ rest ∧
      4 = front.utf8ByteSize ∧ (∃ ts, full.tokens front = .ok ts) ∧
      LexError.Reports front.toList (.unexpected 4 'é') rest.toList) ∧
    loop.tokens "x2147483648" = .error (.outOfRange 1 "2147483648") ∧
      ∃ front rest, "x2147483648" = front ++ rest ∧ 1 = front.utf8ByteSize ∧
        (∃ ts, loop.tokens front = .ok ts) ∧
        LexError.Reports front.toList (.outOfRange 1 "2147483648") rest.toList := by
  have hforeign : full.tokens "var é" = .error (.unexpected 4 'é') :=
    eq_error_of_match (by decide +kernel)
  have hlarge : loop.tokens "x2147483648" = .error (.outOfRange 1 "2147483648") :=
    eq_error_of_match (by decide +kernel)
  exact ⟨⟨hforeign, tokens_error_first hforeign⟩, hlarge, tokens_error_first hlarge⟩

end Dialect

end Imp
