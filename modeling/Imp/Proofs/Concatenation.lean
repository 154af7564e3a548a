import Imp.Proofs.Tiling

/-!
Two sources with a blank between them.

No lexeme goes over a blank, so the tokens of the whole are those of the one source, without the end
of input, and those of the other, moved behind the blank. No statement goes on in the other source
either, since a source that parses has come to the end of its statements.
-/

namespace Imp

open Grammar Token Token.Lexer

-- A token that many bytes further on.
def Token.shift (n : Nat) (t : Token) : Token :=
  { t with position := t.position + n }

def LexError.shift (n : Nat) : LexError → LexError
  | unexpected p c => unexpected (p + n) c
  | outOfRange p ds => outOfRange (p + n) ds

namespace Token.Lexer

variable {d : Dialect} {p : Nat} {c w : Char} {cs rest more : List Char} {ts : List Token}

section Seam

-- A lexeme in front of a longer text.
def Lexeme.before (l : Lexeme) (more : List Char) : Lexeme :=
  { l with rest := l.rest ++ more }

theorem takeWhile_before {f : Char → Bool} (hw : ¬f w) :
    (rest ++ w :: more).takeWhile f = rest.takeWhile f ∧
      (rest ++ w :: more).dropWhile f = rest.dropWhile f ++ w :: more := by
  have hrun : ∀ c ∈ rest.takeWhile f, f c := fun c hc =>
    List.all_eq_true.mp List.all_takeWhile c hc
  have hstop : ∀ c ∈ (rest.dropWhile f ++ w :: more).head?, ¬f c := fun c hc => by
    have hrest : ∀ c ∈ (rest.dropWhile f).head?, ¬f c := not_of_mem_head?_dropWhile
    cases hd : rest.dropWhile f with
    | nil =>
      rw [hd] at hc
      cases hc
      exact hw
    | cons c' cs =>
      rw [hd] at hc hrest
      exact hrest c hc
  have h := takeWhile_append_eq hrun hstop
  rwa [← List.append_assoc, List.takeWhile_append_dropWhile] at h

theorem word_before (hw : isBlank w) :
    word d c (rest ++ w :: more) = (word d c rest).before (w :: more) := by
  have hw : ¬isWordChar w := fun h => not_isBlank_of_isWordChar h hw
  simp only [word, Lexeme.before, takeWhile_before hw]

theorem number_before (hw : isBlank w) :
    number p c (rest ++ w :: more) = (number p c rest).map (Lexeme.before · (w :: more)) := by
  have hw : ¬w.isDigit := fun h => not_isBlank_of_isDigit h hw
  simp only [number, takeWhile_before hw]
  split <;> rfl

theorem symbol_before (hw : isBlank w) :
    symbol p c (rest ++ w :: more) = (symbol p c rest).map (Lexeme.before · (w :: more)) := by
  have hw : w ≠ '=' := by
    rintro rfl
    cases hw
  simp only [symbol]
  cases mark? c with
  | some k => rfl
  | none =>
    cases beforeEquals? c with
    | none => rfl
    | some o =>
      obtain ⟨o, k'⟩ := o
      cases rest with
      | nil => cases o <;> simp [hw, Except.map, Lexeme.before]
      | cons c' rest =>
        by_cases hc : c' = '='
        case pos => subst hc; rfl
        case neg => cases o <;> simp [hc, Except.map, Lexeme.before]

theorem first_before (hw : isBlank w) :
    first d p c (rest ++ w :: more) = (first d p c rest).map (Lexeme.before · (w :: more)) := by
  simp only [first, word_before hw, number_before hw, symbol_before hw]
  split
  case isTrue => rfl
  case isFalse => split <;> rfl

end Seam

-- What has been scanned ends in the one end of input, behind the last character.
theorem exists_front_of_scan (h : scan d p cs = .ok ts) :
    ∃ front, ts = front ++ [⟨.eof, p + cs.length⟩] ∧ ∀ t ∈ front, t.kind ≠ .eof := by
  fun_induction scan d p cs generalizing ts with
  | case1 p =>
    cases h
    exact ⟨[], rfl, by simp⟩
  | case2 p c rest hc ih =>
    obtain ⟨front, rfl, hfront⟩ := ih h
    exact ⟨front, by rw [List.length_cons]; congr 3; omega, hfront⟩
  | case3 => cases h
  | case4 => cases h
  | case5 p c rest hc l hl hlength us hus ih =>
    cases h
    obtain ⟨front, rfl, hfront⟩ := ih hus
    have hlen := congrArg List.length (text_append_rest_of_first hl).1
    rw [List.length_append] at hlen
    refine ⟨⟨l.kind, p⟩ :: front, ?_, List.forall_mem_cons.mpr ⟨fun heof => ?_, hfront⟩⟩
    case refine_1 => rw [← hlen, Nat.add_assoc]; rfl
    case refine_2 =>
      have hspelled := (spelledBy_of_first hl).1
      rw [show l.kind = .eof from heof] at hspelled
      cases hspelled with
      | keyword isWord => simp at isWord
      | mark isMark => cases isMark

-- What is in front of a blank is scanned as on its own, and so is what is behind it.
theorem scan_before (hw : isBlank w) :
    scan d p (cs ++ w :: more) = (scan d p cs).bind fun ts =>
      (scan d (p + cs.length + 1) more).map (ts.dropLast ++ ·) := by
  fun_induction scan d p cs with
  | case1 p =>
    rw [List.nil_append, scan, if_pos hw]
    cases scan d (p + 1) more <;> simp [Except.bind, Except.map]
  | case2 p c rest hc ih =>
    have hp : p + 1 + rest.length = p + (c :: rest).length := by rw [List.length_cons]; omega
    rw [List.cons_append, scan, if_pos hc, ih, hp]
  | case3 p c rest hc e he =>
    have hfirst : first d p c (rest ++ w :: more) = .error e := by rw [first_before hw, he]; rfl
    exact scan_of_error hc hfirst
  | case4 p c rest hc l hl hlength e he ih =>
    have hfirst : first d p c (rest ++ w :: more) = .ok (l.before (w :: more)) := by
      rw [first_before hw, hl]
      rfl
    rw [List.cons_append, scan_of_first hc hfirst]
    simp only [Lexeme.before, ih, he]
    rfl
  | case5 p c rest hc l hl hlength us hus ih =>
    have hfirst : first d p c (rest ++ w :: more) = .ok (l.before (w :: more)) := by
      rw [first_before hw, hl]
      rfl
    obtain ⟨front, rfl, -⟩ := exists_front_of_scan hus
    have hp : p + l.text.length + l.rest.length = p + (c :: rest).length := by
      rw [← (text_append_rest_of_first hl).1, List.length_append, Nat.add_assoc]
    have hlast : (⟨l.kind, p⟩ :: (front ++ [⟨.eof, p + (c :: rest).length⟩])).dropLast =
        ⟨l.kind, p⟩ :: front := by
      rw [← List.cons_append, List.dropLast_concat]
    rw [List.cons_append, scan_of_first hc hfirst]
    simp only [Lexeme.before, ih, hus, hp]
    cases scan d (p + (c :: rest).length + 1) more <;>
      simp [Except.bind, Except.map, hlast, -List.length_cons]

section Shift

variable {n : Nat}

theorem number_shift : number (p + n) c rest = (number p c rest).mapError (LexError.shift n) := by
  simp only [number]
  split <;> rfl

theorem symbol_shift : symbol (p + n) c rest = (symbol p c rest).mapError (LexError.shift n) := by
  simp only [symbol]
  split
  case h_1 => rfl
  case h_2 => split <;> rfl

theorem first_shift :
    first d (p + n) c rest = (first d p c rest).mapError (LexError.shift n) := by
  simp only [first, number_shift, symbol_shift]
  split
  case isTrue => rfl
  case isFalse => split <;> rfl

-- Where a text starts is of no account but for the places of its tokens and of its fault.
theorem scan_shift : scan d (p + n) cs =
    ((scan d p cs).map (List.map (Token.shift n))).mapError (LexError.shift n) := by
  fun_induction scan d p cs with
  | case1 p =>
    rw [scan]
    rfl
  | case2 p c rest hc ih => rw [scan, if_pos hc, Nat.add_right_comm, ih]
  | case3 p c rest hc e he =>
    rw [scan_of_error hc (e := e.shift n) (by rw [first_shift, he]; rfl)]
    rfl
  | case4 p c rest hc l hl hlength e he ih | case5 p c rest hc l hl hlength ts he ih =>
    have hfirst : first d (p + n) c rest = .ok l := by rw [first_shift, hl]; rfl
    rw [scan_of_first hc hfirst, Nat.add_right_comm, ih, he]
    rfl

end Shift

end Token.Lexer

namespace Dialect

variable {d : Dialect} {w : Char} {s t : String} {ts us : List Token} {p q : Program}

theorem exists_front_of_tokens (h : d.tokens s = .ok ts) :
    ∃ front, ts = front ++ [⟨.eof, s.utf8ByteSize⟩] ∧ ∀ t ∈ front, t.kind ≠ .eof := by
  obtain ⟨front, rfl, hfront⟩ := exists_front_of_scan h
  have hsize : s.utf8ByteSize = s.toList.length := utf8ByteSize_of_short (short_of_scan h)
  exact ⟨front, by rw [hsize, Nat.zero_add], hfront⟩

theorem toList_concatenated :
    (s ++ String.singleton w ++ t).toList = s.toList ++ w :: t.toList := by
  simp

theorem tokens_concatenated_of_error {e : LexError} (hw : isBlank w) (h : d.tokens s = .error e) :
    d.tokens (s ++ String.singleton w ++ t) = .error e := by
  rw [tokens] at h
  rw [tokens, toList_concatenated, scan_before hw, h]
  rfl

theorem tokens_concatenated {front : List Token} (hw : isBlank w)
    (h : d.tokens s = .ok (front ++ [⟨.eof, s.utf8ByteSize⟩])) :
    d.tokens (s ++ String.singleton w ++ t) =
      ((d.tokens t).map fun us => front ++ us.map (Token.shift (s.utf8ByteSize + 1))).mapError
        (LexError.shift (s.utf8ByteSize + 1)) := by
  obtain ⟨front', heq, -⟩ := exists_front_of_scan h
  obtain ⟨rfl, heof⟩ := List.append_inj' heq rfl
  have hsize : s.utf8ByteSize = 0 + s.toList.length := by simpa using heof
  rw [tokens] at h
  rw [tokens, toList_concatenated, scan_before hw, h]
  simp only [Except.bind, List.dropLast_concat, ← hsize]
  have hshift := @scan_shift d 0 t.toList (s.utf8ByteSize + 1)
  rw [Nat.zero_add] at hshift
  rw [hshift, tokens]
  cases scan d 0 t.toList <;> rfl

theorem kinds_append {front : List Token} (hfront : ∀ t ∈ front, t.kind ≠ .eof) :
    kinds (front ++ us) = front.map Token.kind ++ kinds us := by
  rw [kinds, List.takeWhile_append_of_pos (by simpa using hfront), List.map_append]
  rfl

theorem kinds_shift (n : Nat) : kinds (us.map (Token.shift n)) = kinds us := by
  have hkind : Token.kind ∘ Token.shift n = Token.kind := rfl
  rw [kinds, List.takeWhile_map, List.map_map, hkind]
  rfl

theorem parse_concatenated (hw : isBlank w) (hp : d.parse s = .ok p) (hq : d.parse t = .ok q) :
    d.parse (s ++ String.singleton w ++ t) = .ok (p ++ q) := by
  obtain ⟨ts, hts, hp⟩ := parse_eq_ok_iff.mp hp
  obtain ⟨us, hus, hq⟩ := parse_eq_ok_iff.mp hq
  obtain ⟨front, rfl, hfront⟩ := exists_front_of_tokens hts
  have hkinds : kinds [⟨.eof, s.utf8ByteSize⟩] = [] := rfl
  rw [kinds_append hfront, hkinds, List.append_nil] at hp
  refine parse_eq_ok_iff.mpr ⟨_, by rw [tokens_concatenated hw hts, hus]; rfl, ?_⟩
  rw [kinds_append hfront, kinds_shift]
  exact hp.append hq

-- Of two sources with a blank between them, the first is read as on its own, faults included, and
-- the second as on its own but for its places. The programs of both make up that of the whole.
theorem tokens_parse_concatenated (d : Dialect) (s t : String) {w : Char} (hw : isBlank w) :
    (∀ e, d.tokens s = .error e → d.tokens (s ++ String.singleton w ++ t) = .error e) ∧
    (∀ ts, d.tokens s = .ok ts → ∃ front, ts = front ++ [⟨.eof, s.utf8ByteSize⟩] ∧
      (∀ us, d.tokens t = .ok us → d.tokens (s ++ String.singleton w ++ t) =
        .ok (front ++ us.map (Token.shift (s.utf8ByteSize + 1)))) ∧
      ∀ e, d.tokens t = .error e → d.tokens (s ++ String.singleton w ++ t) =
        .error (e.shift (s.utf8ByteSize + 1))) ∧
    ∀ p q, d.parse s = .ok p → d.parse t = .ok q →
      d.parse (s ++ String.singleton w ++ t) = .ok (p ++ q) := by
  refine ⟨fun e => tokens_concatenated_of_error hw, fun ts hts => ?_,
    fun p q => parse_concatenated hw⟩
  obtain ⟨front, rfl, -⟩ := exists_front_of_tokens hts
  refine ⟨front, rfl, fun us hus => ?_, fun e he => ?_⟩
  case refine_1 => rw [tokens_concatenated hw hts, hus]; rfl
  case refine_2 => rw [tokens_concatenated hw hts, he]; rfl

-- Marks that would be one without the blank, and a conditional that could go on with `else`.
theorem tokens_parse_concatenated_tab :
    loop.tokens "x >\t= é" = .error (.unexpected 6 'é') ∧
      full.parse "if (x < 1) \x7b \x7d\tx = 2;" =
        .ok [.branch ⟨.lt, .var "x", .num 1⟩ [] none, .assign "x" (.num 2)] := by
  have hgreater : loop.tokens "x >" = .ok [⟨.ident "x", 0⟩, ⟨.relation .gt, 2⟩, ⟨.eof, 3⟩] :=
    eq_ok_of_toOption (by decide +kernel)
  have hequals : loop.tokens "= é" = .error (.unexpected 2 'é') :=
    eq_error_of_match (by decide +kernel)
  have hbranch : full.parse "if (x < 1) \x7b \x7d" =
      .ok [.branch ⟨.lt, .var "x", .num 1⟩ [] none] :=
    eq_ok_of_toOption (by decide +kernel)
  have hassign : full.parse "x = 2;" = .ok [.assign "x" (.num 2)] :=
    eq_ok_of_toOption (by decide +kernel)
  have ⟨_, hlex, _⟩ := tokens_parse_concatenated loop "x >" "= é" (w := '\t') (by decide)
  have ⟨_, _, hparse⟩ :=
    tokens_parse_concatenated full "if (x < 1) \x7b \x7d" "x = 2;" (w := '\t') (by decide)
  have ⟨_, _, _, herror⟩ := hlex _ hgreater
  exact ⟨herror _ hequals, hparse _ _ hbranch hassign⟩

end Dialect

end Imp
