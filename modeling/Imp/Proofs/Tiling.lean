import Imp.Proofs.Writable

/-!
Lexemes tile a source.

The tokens of a source stand for pieces of its bytes that lie apart from each other, leave out
nothing but blanks, and cannot be made longer. There is at most one such list of tokens.
-/

namespace Imp

namespace Token

open Kind Lexer

def bytes (text : String) : List UInt8 :=
  text.toByteArray.data.toList

-- The texts that stand for a kind of token.
inductive Kind.SpelledBy (d : Dialect) : Kind → String → Prop
  | name {x : String} (isName : d.IsName x) : SpelledBy d (.ident x) x
  | keyword {k : Kind} {w : String} (isWord : k ∈ [varWord, whileWord, ifWord, elseWord])
      (lexeme : k.lexeme? = some w) (reserved : w ∈ d.reserved) : SpelledBy d k w
  | number {v : Int32} {w : String} (nonempty : w ≠ "") (digits : w.toList.all Char.isDigit)
      (value : v.toInt = Nat.ofDigitChars 10 w.toList 0)
      (le : Nat.ofDigitChars 10 w.toList 0 ≤ 2147483647) : SpelledBy d (.number v) w
  | mark {k : Kind} {w : String} (isMark : k.isMark) (lexeme : k.lexeme? = some w) : SpelledBy d k w

-- What would go on with the text of a token, right behind it.
def Kind.Continues : Kind → Char → Prop
  | varWord, c | whileWord, c | ifWord, c | elseWord, c | ident _, c => isWordChar c
  | number _, c => c.isDigit
  | assign, c | relation .gt, c | relation .lt, c => c = '='
  | _, _ => False

-- A token, and the text that it stands for.
structure Tile where
  token : Token
  text : String

-- The byte behind a tile.
def Tile.stop (t : Tile) : Nat :=
  t.token.position + t.text.utf8ByteSize

-- A tile lies on a source, and its text is as long as it can be there.
structure Tile.Fits (d : Dialect) (source : List UInt8) (t : Tile) : Prop where
  spelled : t.token.kind.SpelledBy d t.text
  lies : bytes t.text <+: source.drop t.token.position
  longest : ∀ b ∈ source[t.stop]?, ¬t.token.kind.Continues (Char.ofUInt8 b)

-- Tiles fit on a source from a byte on, lie apart from each other in their order, and cover all
-- but blanks.
structure Tiling (d : Dialect) (source : List UInt8) (start : Nat) (tiles : List Tile) : Prop where
  fits : ∀ t ∈ tiles, t.Fits d source
  start_le : ∀ t ∈ tiles, start ≤ t.token.position
  apart : tiles.Pairwise fun t u => t.stop ≤ u.token.position
  covered : ∀ i b, start ≤ i → source[i]? = some b → ¬isBlank (Char.ofUInt8 b) →
    ∃ t ∈ tiles, t.token.position ≤ i ∧ i < t.stop

section Bytes

variable {c : Char} {cs : List Char}

theorem bytes_eq (s : String) : bytes s = s.toList.flatMap String.utf8EncodeChar := by
  rw [bytes, ← String.utf8Encode_toList, List.utf8Encode, List.toList_data_toByteArray]

theorem length_bytes (s : String) : (bytes s).length = s.utf8ByteSize := by
  rfl

-- One byte for each character, and the other way round.
theorem bytes_of_short (h : ∀ c ∈ cs, c.utf8Size = 1) :
    cs.flatMap String.utf8EncodeChar = cs.map Char.toUInt8 ∧
      (cs.map Char.toUInt8).map Char.ofUInt8 = cs := by
  induction cs with
  | nil => exact ⟨rfl, rfl⟩
  | cons c cs ih =>
    have ⟨hc, hcs⟩ := List.forall_mem_cons.mp h
    have ⟨hbytes, hchars⟩ := ih hcs
    refine ⟨?_, ?_⟩
    case refine_1 =>
      rw [List.flatMap_cons, String.utf8EncodeChar_eq_singleton hc, hbytes]
      rfl
    case refine_2 =>
      have hle := UInt32.le_iff_toNat_le.mp (Char.utf8Size_eq_one_iff.mp hc)
      have hval : (c.val.toUInt8).toUInt32 = c.val := by
        rw [← UInt32.toNat_inj, UInt8.toNat_toUInt32, UInt32.toNat_toUInt8]
        exact Nat.mod_eq_of_lt (Nat.lt_of_le_of_lt hle (by decide))
      rw [List.map_cons, List.map_cons, hchars]
      exact congrArg (· :: cs) (Char.ext hval)

theorem utf8ByteSize_of_short {s : String} (h : ∀ c ∈ s.toList, c.utf8Size = 1) :
    s.utf8ByteSize = s.toList.length := by
  rw [← length_bytes, bytes_eq, (bytes_of_short h).1, List.length_map]

theorem utf8Size_eq_one (h : ∀ b ∈ String.utf8EncodeChar c, (Char.ofUInt8 b).utf8Size = 1) :
    c.utf8Size = 1 := by
  have hfirst : ∀ n, UInt8.ofNat n ∈ String.utf8EncodeChar c → n % 256 < 128 := fun n hn => by
    have hle := UInt32.le_iff_toNat_le.mp (Char.utf8Size_eq_one_iff.mp (h _ hn))
    have hval : (Char.ofUInt8 (UInt8.ofNat n)).val.toNat = n % 256 :=
      (UInt8.toNat_toUInt32 _).trans UInt8.toNat_ofNat'
    rw [hval] at hle
    exact Nat.lt_succ_of_le hle
  rw [Char.utf8Size_eq_one_iff, UInt32.le_iff_toNat_le]
  -- the first of several bytes is too large
  simp only [String.utf8EncodeChar] at hfirst
  split at hfirst
  case isTrue hle => exact hle
  case isFalse =>
    split at hfirst
    case isTrue => have := hfirst _ (List.mem_cons_self ..); omega
    case isFalse =>
      split at hfirst
      case isTrue => have := hfirst _ (List.mem_cons_self ..); omega
      case isFalse => have := hfirst _ (List.mem_cons_self ..); omega

theorem utf8Size_of_isBlank (h : isBlank c) : c.utf8Size = 1 := by
  simp only [isBlank, Bool.or_eq_true, decide_eq_true_eq] at h
  rcases h with (((rfl | rfl) | rfl) | rfl) | rfl <;> rfl

theorem utf8Size_of_isDigit (h : c.isDigit) : c.utf8Size = 1 := by
  simp only [Char.isDigit, Bool.and_eq_true, decide_eq_true_eq] at h
  exact Char.utf8Size_eq_one_iff.mpr (UInt32.le_trans h.2 (by decide))

theorem utf8Size_of_isWordChar (h : isWordChar c) : c.utf8Size = 1 := by
  delta isWordChar Char.isAlpha Char.isUpper Char.isLower at h
  simp only [Bool.or_eq_true, Bool.and_eq_true, decide_eq_true_eq] at h
  rw [Char.utf8Size_eq_one_iff]
  rcases h with (h | h) | rfl
  case inl.inl => exact UInt32.le_trans h.2 (by decide)
  case inl.inr => exact UInt32.le_trans h.2 (by decide)
  case inr => decide

theorem bytes_map_of_short {s : String} (h : ∀ c ∈ s.toList, c.utf8Size = 1) :
    (bytes s).map Char.ofUInt8 = s.toList := by
  have ⟨hbytes, hchars⟩ := bytes_of_short h
  rw [bytes_eq, hbytes, hchars]

end Bytes

section Spelling

variable {d : Dialect} {k : Kind} {w : String} {p : Nat} {c : Char} {cs rest : List Char}

theorem Kind.SpelledBy.short (h : k.SpelledBy d w) : w ≠ "" ∧ ∀ c ∈ w.toList, c.utf8Size = 1 := by
  cases h with
  | name isName =>
    have hletters := List.all_eq_true.mp isName.letters
    exact ⟨isName.nonempty, fun c hc => utf8Size_of_isWordChar (hletters c hc)⟩
  | keyword isWord lexeme =>
    simp only [List.mem_cons, List.not_mem_nil, or_false] at isWord
    rcases isWord with rfl | rfl | rfl | rfl <;> cases lexeme <;> simp [Char.utf8Size]
  | number nonempty digits =>
    exact ⟨nonempty, fun c hc => utf8Size_of_isDigit (List.all_eq_true.mp digits c hc)⟩
  | mark isMark lexeme =>
    cases k with
    | operator op => cases op <;> cases lexeme <;> simp [Operator.symbol, Char.utf8Size]
    | relation r => cases r <;> cases lexeme <;> simp [Relation.symbol, Char.utf8Size]
    | varWord | whileWord | ifWord | elseWord | ident | number | eof => cases isMark
    | _ => cases lexeme; simp [Char.utf8Size]

theorem Kind.SpelledBy.utf8ByteSize_eq (h : k.SpelledBy d w) :
    w.utf8ByteSize = w.toList.length :=
  utf8ByteSize_of_short h.short.2

theorem ofWord_of_reserved (hk : k ∈ [.varWord, .whileWord, .ifWord, .elseWord])
    (hw : k.lexeme? = some w) (hr : w ∈ d.reserved) : ofWord d w = k := by
  simp only [List.mem_cons, List.not_mem_nil, or_false] at hk
  rcases hk with rfl | rfl | rfl | rfl <;> cases hw <;> cases d <;>
    first | rfl | simp [Dialect.reserved, Dialect.hasConditionals] at hr

theorem first_of_letters (hne : w ≠ "") (hl : w.toList.all isWordChar)
    (hw : w.toList ++ cs = c :: rest) (hcs : ∀ c' ∈ cs.head?, ¬isWordChar c') :
    ¬isBlank c ∧ first d p c rest = .ok ⟨.ofWord d w, w.toList, cs⟩ := by
  have hl := List.all_eq_true.mp hl
  cases h : w.toList with
  | nil => exact (hne (String.toList_eq_nil_iff.mp h)).elim
  | cons c' w' =>
    rw [h] at hw hl
    obtain ⟨rfl, rfl⟩ := List.cons.inj hw
    have hfirst := first_word (d := d) (p := p) hl hcs
    rw [← h, String.ofList_toList] at hfirst
    exact ⟨not_isBlank_of_isWordChar (hl c' (by simp)), h ▸ hfirst⟩

theorem first_of_digits {n : Nat} (hne : w ≠ "") (hl : w.toList.all Char.isDigit)
    (hn : Nat.ofDigitChars 10 w.toList 0 = n) (hle : n ≤ maxLiteral)
    (hw : w.toList ++ cs = c :: rest) (hcs : ∀ c' ∈ cs.head?, ¬c'.isDigit) :
    ¬isBlank c ∧ first d p c rest = .ok ⟨.number (Int32.ofNat n), w.toList, cs⟩ := by
  have hl := List.all_eq_true.mp hl
  cases h : w.toList with
  | nil => exact (hne (String.toList_eq_nil_iff.mp h)).elim
  | cons c' w' =>
    rw [h] at hw hl hn
    obtain ⟨rfl, rfl⟩ := List.cons.inj hw
    exact ⟨not_isBlank_of_isDigit (hl c' (by simp)), first_number hl hn hle hcs⟩

-- The text of a mark is one of its characters, or that and an equals sign.
theorem first_of_mark (hk : k.isMark) (hw : k.lexeme? = some w) (h : w.toList ++ cs = c :: rest)
    (hcs : ∀ c' ∈ cs.head?, ¬k.Continues c') :
    ¬isBlank c ∧ first d p c rest = .ok ⟨k, w.toList, cs⟩ := by
  have hequals : (∀ c' ∈ cs.head?, ¬c' = '=') → cs.head? ≠ some '=' := fun h he => h '=' he rfl
  cases k with
  | operator op =>
    cases op <;> cases hw <;> obtain ⟨rfl, rfl⟩ := List.cons.inj h <;>
      exact ⟨by decide, first_mark rfl⟩
  | relation r =>
    cases r with
    | gt | lt =>
      cases hw
      obtain ⟨rfl, rfl⟩ := List.cons.inj h
      exact ⟨by decide, first_short rfl (hequals hcs)⟩
    | ge | le | eq | ne =>
      cases hw
      obtain ⟨rfl, rfl⟩ := List.cons.inj h
      exact ⟨by decide, first_long rfl⟩
  | assign =>
    cases hw
    obtain ⟨rfl, rfl⟩ := List.cons.inj h
    exact ⟨by decide, first_short rfl (hequals hcs)⟩
  | varWord | whileWord | ifWord | elseWord | ident | number | eof => cases hk
  | _ =>
    cases hw
    obtain ⟨rfl, rfl⟩ := List.cons.inj h
    exact ⟨by decide, first_mark rfl⟩

theorem first_of_spelledBy (h : k.SpelledBy d w) (hw : w.toList ++ cs = c :: rest)
    (hcs : ∀ c' ∈ cs.head?, ¬k.Continues c') :
    ¬isBlank c ∧ first d p c rest = .ok ⟨k, w.toList, cs⟩ := by
  cases h with
  | name isName => exact isName.ofWord_eq ▸ first_of_letters isName.nonempty isName.letters hw hcs
  | keyword isWord lexeme reserved =>
    have hof := ofWord_of_reserved isWord lexeme reserved
    simp only [List.mem_cons, List.not_mem_nil, or_false] at isWord
    rcases isWord with rfl | rfl | rfl | rfl <;> cases lexeme <;>
      exact hof ▸ first_of_letters (by decide) (by decide) hw hcs
  | number nonempty digits value le =>
    have hfirst := first_of_digits (d := d) (p := p) nonempty digits rfl le hw hcs
    have hv : Int32.ofNat (Nat.ofDigitChars 10 w.toList 0) = _ :=
      (congrArg Int32.ofInt value).symm.trans (Int32.ofInt_toInt _)
    rwa [hv] at hfirst
  | mark isMark lexeme => exact first_of_mark isMark lexeme hw hcs

theorem continues_ofWord : (ofWord d w).Continues c ↔ isWordChar c := by
  unfold ofWord
  split <;> cases d <;> rfl

theorem spelledBy_ofWord (h : (ofWord d w).Writable d) : (ofWord d w).SpelledBy d w := by
  unfold ofWord at h ⊢
  split at h
  case h_1 | h_2 => exact .keyword (by decide) rfl (by cases d <;> decide)
  case h_3 | h_4 =>
    cases d with
    | full => exact .keyword (by decide) rfl (by decide)
    | loop => exact .name h
  case h_5 => exact .name h

theorem spelledBy_of_number {l : Lexeme} (hc : c.isDigit) (h : number p c rest = .ok l) :
    l.kind.SpelledBy d (String.ofList l.text) ∧ ∀ c' ∈ l.rest.head?, ¬l.kind.Continues c' := by
  simp only [Lexer.number] at h
  split at h
  case isTrue hle =>
    cases h
    refine ⟨.number ?_ ?_ ?_ ?_, not_of_mem_head?_dropWhile⟩
    case refine_1 => simp [String.ext_iff]
    case refine_2 => simp [hc, List.all_takeWhile]
    case refine_3 =>
      rw [Int32.toInt_ofNat_of_lt (by simp only [maxLiteral] at hle; omega), String.toList_ofList]
    case refine_4 => rwa [String.toList_ofList]
  case isFalse => cases h

theorem spelledBy_of_symbol {l : Lexeme} (h : symbol p c rest = .ok l) :
    l.kind.SpelledBy d (String.ofList l.text) ∧ ∀ c' ∈ l.rest.head?, ¬l.kind.Continues c' := by
  unfold symbol at h
  split at h
  case h_1 k hk =>
    cases h
    unfold mark? at hk
    split at hk <;> cases hk <;> exact ⟨.mark rfl rfl, fun _ _ => id⟩
  case h_2 =>
    split at h
    case h_1 o k rest ho =>
      cases h
      unfold beforeEquals? at ho
      split at ho <;> cases ho <;> exact ⟨.mark rfl rfl, fun _ _ => id⟩
    case h_2 rest _ _ k k' ho hne =>
      cases h
      have hrest : ∀ c' ∈ rest.head?, c' ≠ '=' := fun c' hc' heq => by
        cases rest with
        | nil => cases hc'
        | cons c'' rest => cases hc'; exact hne rest (heq ▸ rfl)
      unfold beforeEquals? at ho
      split at ho <;> cases ho <;> exact ⟨.mark rfl rfl, hrest⟩
    case h_3 => cases h

theorem spelledBy_of_first {l : Lexeme} (h : first d p c rest = .ok l) :
    l.kind.SpelledBy d (String.ofList l.text) ∧ ∀ c' ∈ l.rest.head?, ¬l.kind.Continues c' := by
  unfold first at h
  split at h
  case isTrue hc =>
    cases h
    have hwritable : (word d c rest).kind.Writable d := word_writable hc
    have hspelled := spelledBy_ofWord hwritable
    refine ⟨hspelled, fun c' hc' => ?_⟩
    rw [word, continues_ofWord]
    exact not_of_mem_head?_dropWhile c' hc'
  case isFalse =>
    split at h
    case isTrue hc => exact spelledBy_of_number hc h
    case isFalse => exact spelledBy_of_symbol h

end Spelling

section Scan

variable {d : Dialect} {source : List UInt8} {start : Nat} {tiles : List Tile} {t : Tile}

theorem Tile.Fits.start_lt_stop (h : t.Fits d source) : t.token.position < t.stop := by
  have := mt String.utf8ByteSize_eq_zero_iff.mp h.spelled.short.1
  simp only [stop]
  omega

theorem Tile.Fits.stop_le (h : t.Fits d source) : t.stop ≤ source.length := by
  have hlt := h.start_lt_stop
  have hle := h.lies.length_le
  rw [length_bytes, List.length_drop] at hle
  simp only [stop] at hlt ⊢
  omega

-- The source from a tile on, in characters.
theorem Tile.Fits.chars (h : t.Fits d source) :
    (source.drop t.token.position).map Char.ofUInt8 =
      t.text.toList ++ (source.drop t.stop).map Char.ofUInt8 := by
  have ⟨rest, hrest⟩ := h.lies
  have hdrop : source.drop t.stop = rest := by
    rw [stop, ← List.drop_drop, ← hrest, ← length_bytes, List.drop_left]
  rw [← hrest, hdrop, List.map_append, bytes_map_of_short h.spelled.short.2]

theorem Tile.Fits.first {c : Char} {rest : List Char} (h : t.Fits d source) (p : Nat)
    (hc : (source.drop t.token.position).map Char.ofUInt8 = c :: rest) :
    ¬isBlank c ∧ Lexer.first d p c rest =
      .ok ⟨t.token.kind, t.text.toList, (source.drop t.stop).map Char.ofUInt8⟩ := by
  refine first_of_spelledBy h.spelled (h.chars.symm.trans hc) fun c' hc' => ?_
  rw [List.head?_map, List.head?_drop] at hc'
  obtain ⟨b, hb, rfl⟩ := Option.map_eq_some_iff.mp hc'
  exact h.longest b hb

namespace Tiling

theorem skip (h : Tiling d source start tiles) (hlt : start < source.length)
    (hb : isBlank (Char.ofUInt8 source[start])) : Tiling d source (start + 1) tiles where
  fits := h.fits
  start_le t ht := by
    refine Nat.lt_of_le_of_ne (h.start_le t ht) fun heq => ?_
    subst heq
    have hchars := congrArg (List.map Char.ofUInt8) (List.drop_eq_getElem_cons hlt)
    exact ((h.fits t ht).first 0 hchars).1 hb
  apart := h.apart
  covered i b hi := h.covered i b (by omega)

theorem exists_head (h : Tiling d source start tiles) (hlt : start < source.length)
    (hb : ¬isBlank (Char.ofUInt8 source[start])) :
    ∃ t ts, tiles = t :: ts ∧ t.token.position = start ∧ Tiling d source t.stop ts := by
  have ⟨u, hu, hle, hstop⟩ :=
    h.covered start source[start] (Nat.le_refl _) (List.getElem?_eq_getElem hlt) hb
  cases tiles with
  | nil => simp at hu
  | cons t ts =>
    have ⟨hfits, hfits'⟩ := List.forall_mem_cons.mp h.fits
    have ⟨hstart, hstart'⟩ := List.forall_mem_cons.mp h.start_le
    have ⟨happart, happart'⟩ := List.pairwise_cons.mp h.apart
    have ht := hfits.start_lt_stop
    -- the tile that covers the byte has no other one in front of it
    have hpos : t.token.position = start := by
      rcases List.mem_cons.mp hu with rfl | hu
      · omega
      · have := happart u hu
        omega
    refine ⟨t, ts, rfl, hpos, hfits', happart, happart', fun i b hi hib hb => ?_⟩
    have ⟨v, hv, hle, hlt⟩ := h.covered i b (by omega) hib hb
    rcases List.mem_cons.mp hv with rfl | hv
    · omega
    · exact ⟨v, hv, hle, hlt⟩

theorem blank (h : Tiling d source (start + 1) tiles) (hlt : start < source.length)
    (hb : isBlank (Char.ofUInt8 source[start])) : Tiling d source start tiles where
  fits := h.fits
  start_le t ht := Nat.le_of_succ_le (h.start_le t ht)
  apart := h.apart
  covered i b hi hib hnb := by
    refine h.covered i b (Nat.lt_of_le_of_ne hi fun heq => hnb ?_) hib hnb
    subst heq
    rw [List.getElem?_eq_getElem hlt] at hib
    exact Option.some.inj hib ▸ hb

theorem cons (ht : t.Fits d source) (h : Tiling d source t.stop tiles) :
    Tiling d source t.token.position (t :: tiles) where
  fits := List.forall_mem_cons.mpr ⟨ht, h.fits⟩
  start_le := by
    have := ht.start_lt_stop
    exact List.forall_mem_cons.mpr ⟨Nat.le_refl _, fun u hu => by have := h.start_le u hu; omega⟩
  apart := List.pairwise_cons.mpr ⟨h.start_le, h.apart⟩
  covered i b hi hib hb := by
    by_cases hlt : i < t.stop
    case pos => exact ⟨t, List.mem_cons_self .., hi, hlt⟩
    case neg =>
      have ⟨u, hu, hle, hlt⟩ := h.covered i b (by omega) hib hb
      exact ⟨u, List.mem_cons_of_mem _ hu, hle, hlt⟩

-- Of a tiling, the lexer finds every tile.
theorem scan_eq_ok (h : Tiling d source start tiles) (hle : start ≤ source.length) :
    scan d start ((source.drop start).map Char.ofUInt8) =
      .ok (tiles.map Tile.token ++ [⟨.eof, source.length⟩]) := by
  induction hn : source.length - start using Nat.strongRecOn generalizing start tiles with
  | ind n ih =>
    by_cases hend : start = source.length
    case pos =>
      have htiles : tiles = [] := List.eq_nil_iff_forall_not_mem.mpr fun t ht => by
        have := h.start_le t ht
        have := (h.fits t ht).start_lt_stop
        have := (h.fits t ht).stop_le
        omega
      simp [htiles, hend, scan]
    case neg =>
      have hlt : start < source.length := by omega
      have hdrop := List.drop_eq_getElem_cons hlt
      by_cases hb : isBlank (Char.ofUInt8 source[start])
      case pos =>
        rw [hdrop, List.map_cons, scan, if_pos hb]
        exact ih _ (by omega) (h.skip hlt hb) hlt rfl
      case neg =>
        obtain ⟨t, ts, rfl, rfl, hts⟩ := h.exists_head hlt hb
        have ht := h.fits t (List.mem_cons_self ..)
        have := ht.start_lt_stop
        have hscan := ih _ (by omega) hts ht.stop_le rfl
        have hchars := congrArg (List.map Char.ofUInt8) hdrop
        rw [hchars, List.map_cons, scan_of_first hb (ht.first t.token.position hchars).2]
        rw [← ht.spelled.utf8ByteSize_eq]
        exact congrArg (Except.map _) hscan

end Tiling

theorem short_of_scan {p : Nat} {cs : List Char} {ts : List Token} (h : scan d p cs = .ok ts) :
    ∀ c ∈ cs, c.utf8Size = 1 := by
  fun_induction scan d p cs generalizing ts with
  | case1 => simp
  | case2 p c rest hc ih => exact List.forall_mem_cons.mpr ⟨utf8Size_of_isBlank hc, ih h⟩
  | case3 => cases h
  | case4 => cases h
  | case5 p c rest hc l hl hlength us hus ih =>
    have hspelled := (spelledBy_of_first hl).1.short.2
    rw [String.toList_ofList] at hspelled
    rw [← (text_append_rest_of_first hl).1]
    exact List.forall_mem_append.mpr ⟨hspelled, ih hus⟩

theorem map_toUInt8_map_ofUInt8 (bs : List UInt8) :
    (bs.map Char.ofUInt8).map Char.toUInt8 = bs := by
  have h : ∀ b : UInt8, b.toUInt32.toUInt8 = b := by simp
  rw [List.map_map]
  exact (List.map_congr_left fun b _ => h b).trans (List.map_id bs)

-- What is at the head of the rest of a source is a tile there.
theorem exists_fits_of_first {l : Lexeme} {c : Char} {rest : List Char}
    (hl : first d start c rest = .ok l)
    (hc : (source.drop start).map Char.ofUInt8 = c :: rest) :
    ∃ t : Tile, t.token = ⟨l.kind, start⟩ ∧ t.Fits d source ∧ t.stop = start + l.text.length ∧
      l.rest = (source.drop t.stop).map Char.ofUInt8 := by
  have ⟨hspelled, hlongest⟩ := spelledBy_of_first hl
  have hshort := hspelled.short.2
  rw [String.toList_ofList] at hshort
  have hsplit := (text_append_rest_of_first hl).1.trans hc.symm
  have hbytes : bytes (String.ofList l.text) = l.text.map Char.toUInt8 := by
    rw [bytes_eq, String.toList_ofList, (bytes_of_short hshort).1]
  have hstop : start + (String.ofList l.text).utf8ByteSize = start + l.text.length := by
    rw [hspelled.utf8ByteSize_eq, String.toList_ofList]
  have hrest : l.rest = (source.drop (start + l.text.length)).map Char.ofUInt8 := by
    rw [← List.drop_drop, List.map_drop, ← hsplit, List.drop_left]
  refine ⟨⟨⟨l.kind, start⟩, String.ofList l.text⟩, rfl, ⟨hspelled, ?_, ?_⟩, hstop, ?_⟩
  case refine_1 =>
    have h := congrArg (List.map Char.toUInt8) hsplit
    rw [List.map_append, map_toUInt8_map_ofUInt8, ← hbytes] at h
    exact ⟨_, h⟩
  case refine_2 =>
    intro b hb
    refine hlongest _ ?_
    rw [Tile.stop, hstop] at hb
    rw [hrest, List.head?_map, List.head?_drop, Option.mem_def.mp hb]
    rfl
  case refine_3 => simpa [Tile.stop, hstop] using hrest

theorem exists_tiling_of_scan {ts : List Token} (hle : start ≤ source.length)
    (h : scan d start ((source.drop start).map Char.ofUInt8) = .ok ts) :
    ∃ tiles, Tiling d source start tiles
      ∧ ts = tiles.map Tile.token ++ [⟨.eof, source.length⟩] := by
  induction hn : source.length - start using Nat.strongRecOn generalizing start ts with
  | ind n ih =>
    by_cases hend : start = source.length
    case pos =>
      subst hend
      refine ⟨[], ⟨by simp, by simp, .nil, fun i b hi hib => ?_⟩, ?_⟩
      case refine_1 => simp [List.getElem?_eq_none hi] at hib
      case refine_2 => simpa [scan, eq_comm] using h
    case neg =>
      have hlt : start < source.length := by omega
      have hdrop := List.drop_eq_getElem_cons hlt
      by_cases hb : isBlank (Char.ofUInt8 source[start])
      case pos =>
        rw [hdrop, List.map_cons, scan, if_pos hb] at h
        obtain ⟨tiles, htiles, hts⟩ := ih _ (by omega) hlt h rfl
        exact ⟨tiles, htiles.blank hlt hb, hts⟩
      case neg =>
        rw [hdrop, List.map_cons] at h
        cases hl : first d start (Char.ofUInt8 source[start])
            ((source.drop (start + 1)).map Char.ofUInt8) with
        | error e => rw [scan_of_error hb hl] at h; cases h
        | ok l =>
          obtain ⟨t, ht, hfits, hstop, hrest⟩ :=
            exists_fits_of_first hl (congrArg (List.map Char.ofUInt8) hdrop)
          rw [scan_of_first hb hl, hrest, ← hstop] at h
          cases hs : scan d t.stop ((source.drop t.stop).map Char.ofUInt8) with
          | error e => rw [hs] at h; cases h
          | ok us =>
            rw [hs] at h
            obtain rfl := Except.ok.inj h
            have hlt := hfits.start_lt_stop
            have hstart : t.token.position = start := congrArg Token.position ht
            obtain ⟨tiles, htiles, hus⟩ := ih _ (by omega) hfits.stop_le hs rfl
            exact ⟨t :: tiles, hstart ▸ htiles.cons hfits, by simp [hus, ht]⟩

theorem Tiling.short {text : String} (h : Tiling d (bytes text) 0 tiles) :
    ∀ c ∈ text.toList, c.utf8Size = 1 := by
  have hbytes : ∀ b ∈ bytes text, (Char.ofUInt8 b).utf8Size = 1 := fun b hb => by
    obtain ⟨i, hi⟩ := List.mem_iff_getElem?.mp hb
    by_cases hblank : isBlank (Char.ofUInt8 b)
    case pos => exact utf8Size_of_isBlank hblank
    case neg =>
      have ⟨t, ht, hle, hlt⟩ := h.covered i b (Nat.zero_le i) hi hblank
      have hfits := h.fits t ht
      have ⟨rest, hrest⟩ := hfits.lies
      have hget : (bytes t.text)[i - t.token.position]? = some b := by
        rw [← hi, ← List.getElem?_append_left, hrest, List.getElem?_drop, Nat.add_sub_cancel' hle]
        rw [length_bytes]
        simp only [Tile.stop] at hlt
        omega
      have hmem := List.mem_map_of_mem (f := Char.ofUInt8) (List.mem_of_getElem? hget)
      rw [bytes_map_of_short hfits.spelled.short.2] at hmem
      exact hfits.spelled.short.2 _ hmem
  intro c hc
  exact utf8Size_eq_one fun b hb =>
    hbytes b (bytes_eq text ▸ List.mem_flatMap.mpr ⟨c, hc, hb⟩)

end Scan

end Token

namespace Dialect

open Token

-- The tokens of the tiles of a source, and the end of input behind its last byte.
def Tiled (d : Dialect) (source : String) (ts : List Token) : Prop :=
  ∃ tiles, Tiling d (bytes source) 0 tiles ∧
    ts = tiles.map Tile.token ++ [⟨.eof, source.utf8ByteSize⟩]

-- The lexer finds the tiling of a source if there is one, and there are not two of them.
theorem tokens_eq_ok_iff_tiled (d : Dialect) (source : String) :
    (∀ ts, d.tokens source = .ok ts ↔ d.Tiled source ts) ∧
      ∀ ts us, d.Tiled source ts → d.Tiled source us → ts = us := by
  have hiff : ∀ ts, d.tokens source = .ok ts ↔ d.Tiled source ts := by
    refine fun ts => ⟨fun h => ?_, fun ⟨tiles, htiles, hts⟩ => ?_⟩
    case refine_1 =>
      rw [tokens, ← bytes_map_of_short (short_of_scan h)] at h
      exact exists_tiling_of_scan (Nat.zero_le _) h
    case refine_2 =>
      rw [tokens, ← bytes_map_of_short htiles.short, hts]
      exact htiles.scan_eq_ok (Nat.zero_le _)
  exact ⟨hiff, fun ts us ht hu =>
    Except.ok.inj (((hiff ts).mpr ht).symm.trans ((hiff us).mpr hu))⟩

-- Lexemes without blanks between them, a word that only one dialect reserves, and leading zeros.
theorem crowded_tiled :
    loop.Tiled "if\t>=007x" [⟨.ident "if", 0⟩, ⟨.relation .ge, 3⟩, ⟨.number 7, 5⟩,
      ⟨.ident "x", 8⟩, ⟨.eof, 9⟩] ∧
      ∀ ts, loop.Tiled "if\t>=007x" ts → ts.length = 5 := by
  have ⟨hiff, hunique⟩ := tokens_eq_ok_iff_tiled loop "if\t>=007x"
  have htiled := (hiff [⟨.ident "if", 0⟩, ⟨.relation .ge, 3⟩, ⟨.number 7, 5⟩,
    ⟨.ident "x", 8⟩, ⟨.eof, 9⟩]).mp (eq_ok_of_toOption (by decide +kernel))
  exact ⟨htiled, fun ts hts => hunique ts _ hts htiled ▸ rfl⟩

end Dialect

end Imp
