import Imp.Proofs.Digits
import Imp.Proofs.Wat.Syntax

/-!
Pieces of text and the items that they stand for: keywords, numbers, names and labels, alone and in
parentheses.
-/

namespace Imp

namespace Wat

-- A text in one piece: a keyword, a number or a name.
structure IsWord (w : String) : Prop where
  nonempty : w.toList ≠ []
  chars : w.toList.all isIdChar

instance {w : String} : Decidable (IsWord w) :=
  decidable_of_iff (w.toList ≠ [] ∧ w.toList.all isIdChar)
    ⟨fun h => ⟨h.1, h.2⟩, fun h => ⟨h.nonempty, h.chars⟩⟩

-- A name in letters, digits and underscores.
structure IsPlain (x : String) : Prop where
  nonempty : x.toList ≠ []
  chars : x.toList.all fun c => c.isAlphanum || c = '_'

instance {x : String} : Decidable (IsPlain x) :=
  decidable_of_iff (x.toList ≠ [] ∧ x.toList.all fun c => c.isAlphanum || c = '_')
    ⟨fun h => ⟨h.1, h.2⟩, fun h => ⟨h.nonempty, h.chars⟩⟩

theorem IsPlain.char {x : String} {c : Char} (hx : IsPlain x) (hc : c ∈ x.toList) :
    c.isAlphanum ∨ c = '_' := by
  simpa using List.all_eq_true.mp hx.chars c hc

theorem IsPlain.isWord {x : String} (hx : IsPlain x) : IsWord x where
  nonempty := hx.nonempty
  chars := by
    refine List.all_eq_true.mpr fun c hc => ?_
    cases hx.char hc with
    | inl hc => simp [isIdChar, hc]
    | inr hc => subst hc; decide

theorem isStringChar_of_isAlphanum {c : Char} (h : c.isAlphanum) : isStringChar c := by
  have hne : ∀ d ∈ ['"', '\\', '\x7f'], d.isAlphanum = false := by simp
  have hle : ' ' ≤ c := by
    delta Char.isAlphanum Char.isAlpha Char.isUpper Char.isLower Char.isDigit at h
    have : (32 : UInt32) ≤ c.val := by grind
    exact this
  grind [isStringChar]

theorem IsPlain.isStringChar {x : String} (hx : IsPlain x) : ∀ c ∈ x.toList, isStringChar c := by
  intro c hc
  cases hx.char hc with
  | inl hc => exact isStringChar_of_isAlphanum hc
  | inr hc => subst hc; decide

section Tokens

variable {c : Char} {cs : List Char} {w : String}

theorem not_isIdChar_of_isWhitespace (h : c.isWhitespace) : isIdChar c = false := by
  simp only [Char.isWhitespace, Bool.or_eq_true, decide_eq_true_eq] at h
  rcases h with ((rfl | rfl) | rfl) | rfl <;> decide

theorem not_isIdChar_of_separates (h : separates cs) : ∀ c ∈ cs.head?, ¬isIdChar c := by
  intro c hc hid
  rw [separates, Option.mem_def.mp hc] at h
  simp only [Option.all_some, Bool.or_eq_true, decide_eq_true_eq] at h
  rcases h with (h | rfl) | rfl
  case inl.inl => simp [not_isIdChar_of_isWhitespace h] at hid
  all_goals exact absurd hid (by decide)

theorem tokens_blank {ws : List Char} (hws : ∀ c ∈ ws, c.isWhitespace) :
    tokens (ws ++ cs) = tokens cs := by
  induction ws with
  | nil => rfl
  | cons c ws ih =>
    have ⟨hc, hws⟩ := List.forall_mem_cons.mp hws
    rw [List.cons_append, tokens, if_pos hc, ih hws]

theorem tokens_space (cs : List Char) : tokens (' ' :: cs) = tokens cs :=
  tokens_blank (by simp : ∀ c ∈ [' '], c.isWhitespace)

theorem tokens_newline (cs : List Char) : tokens ('\n' :: cs) = tokens cs :=
  tokens_blank (by simp : ∀ c ∈ ['\n'], c.isWhitespace)

theorem tokens_openParen (cs : List Char) : tokens ('(' :: cs) = .openParen :: tokens cs := by
  rw [tokens]
  rfl

theorem tokens_closeParen (cs : List Char) : tokens (')' :: cs) = .closeParen :: tokens cs := by
  rw [tokens]
  rfl

theorem tokens_word (hw : IsWord w) (hcs : separates cs) :
    tokens (w.toList ++ cs) = .word w :: tokens cs := by
  have hall := List.all_eq_true.mp hw.chars
  cases hd : w.toList with
  | nil => exact absurd hd hw.nonempty
  | cons c cs' =>
    rw [hd] at hall
    have ⟨hc, hcs'⟩ := List.forall_mem_cons.mp hall
    have ⟨htake, hdrop⟩ := takeWhile_append_eq hcs' (not_isIdChar_of_separates hcs)
    have hblank : c.isWhitespace = false :=
      Bool.eq_false_iff.mpr fun h => by simp [not_isIdChar_of_isWhitespace h] at hc
    have hmark : c ≠ '(' ∧ c ≠ ')' ∧ c ≠ '"' := by
      refine ⟨?_, ?_, ?_⟩ <;> (rintro rfl; exact absurd hc (by decide))
    have hword : String.ofList (c :: cs') = w := hd ▸ String.ofList_toList
    rw [List.cons_append, tokens]
    simp [hblank, hmark, hc, htake, hdrop, hcs, hword]

theorem tokens_string (hw : IsPlain w) (hcs : separates cs) :
    tokens ('"' :: w.toList ++ '"' :: cs) = .str w :: tokens cs := by
  have hquote : ∀ c ∈ ('"' :: cs).head?, ¬isStringChar c := by
    rintro _ ⟨⟩
    decide
  have ⟨htake, hdrop⟩ := takeWhile_append_eq hw.isStringChar hquote
  rw [List.cons_append, tokens, if_neg (by decide), if_neg (by decide), if_neg (by decide),
    if_pos rfl]
  split
  case h_1 rest hrest =>
    obtain rfl : cs = rest := by simpa [hdrop] using hrest
    rw [if_pos hcs, htake, String.ofList_toList]
  case h_2 h => exact (h cs hdrop).elim

end Tokens

-- How many lists are open behind a character, if it does not close one too many.
def nest (depth : Nat) (c : Char) : Option Nat :=
  if c = '(' then some (depth + 1)
  else if c = ')' then if depth = 0 then none else some (depth - 1)
  else some depth

-- Every parenthesis has its counterpart.
def Balanced (text : String) : Prop :=
  text.toList.foldlM nest 0 = some 0

theorem foldlM_nest_of_flat {cs : List Char} (h : ∀ c ∈ cs, c ≠ '(' ∧ c ≠ ')') (depth : Nat) :
    cs.foldlM nest depth = some depth := by
  induction cs with
  | nil => rfl
  | cons c cs ih =>
    have ⟨⟨hopen, hclose⟩, hcs⟩ := List.forall_mem_cons.mp h
    simp [nest, hopen, hclose, ih hcs]

theorem IsWord.flat {w : String} (hw : IsWord w) : ∀ c ∈ w.toList, c ≠ '(' ∧ c ≠ ')' := by
  intro c hc
  have hid := List.all_eq_true.mp hw.chars c hc
  constructor <;> (rintro rfl; exact absurd hid (by decide))

-- A text in front of a space or a parenthesis stands for some items.
structure Spells (text : List Char) (items : List Item) : Prop where
  group : ∀ its outer cs, separates cs →
    group? its outer (tokens (text ++ cs)) = group? (items.reverse ++ its) outer (tokens cs)
  nesting : ∀ depth, text.foldlM nest depth = some depth

namespace Spells

variable {t u : List Char} {xs ys : List Item} {w : String}

theorem word (hw : IsWord w) : Spells w.toList [.word w] where
  group its outer cs hcs := by
    rw [tokens_word hw hcs]
    rfl
  nesting := foldlM_nest_of_flat hw.flat

theorem str (hw : IsPlain w) : Spells ('"' :: w.toList ++ ['"']) [.str w] where
  group its outer cs hcs := by
    rw [List.append_assoc, List.singleton_append, tokens_string hw hcs]
    rfl
  nesting := by
    refine foldlM_nest_of_flat fun c hc => ?_
    simp only [List.mem_append, List.mem_cons, List.not_mem_nil, or_false] at hc
    rcases hc with (rfl | hc) | rfl
    case inl.inr => exact hw.isWord.flat c hc
    all_goals decide

theorem blank (ht : Spells t xs) (hu : Spells u ys) : Spells (t ++ ' ' :: u) (xs ++ ys) where
  group its outer cs hcs := by
    rw [List.append_assoc, List.cons_append, ht.group its outer _ rfl, tokens_space,
      hu.group _ outer cs hcs, List.reverse_append, List.append_assoc]
  nesting depth := by
    simp [ht.nesting, hu.nesting, nest]

theorem list (ht : Spells t xs) : Spells ('(' :: t ++ [')']) [.list xs] where
  group its outer cs hcs := by
    rw [List.append_assoc, List.cons_append, List.singleton_append, tokens_openParen, group?,
      ht.group [] _ _ rfl, tokens_closeParen, group?]
    simp
  nesting depth := by simp [ht.nesting, nest]

end Spells

section Words

variable {n : Nat} {x : String}

theorem isIdChar_of_isDigit {c : Char} (h : c.isDigit) : isIdChar c := by
  simp [isIdChar, Char.isAlphanum, h]

theorem natural?_toDigits (n : Nat) : natural? (Nat.toDigits 10 n) = some n := by
  have hdigits : (Nat.toDigits 10 n).all Char.isDigit :=
    List.all_eq_true.mpr (@isDigit_of_mem_toDigits n)
  rw [natural?, if_pos ⟨Nat.toDigits_ne_nil, hdigits⟩, Nat.ofDigitChars_ten_toDigits]

theorem IsWord.append {w u : String} (hw : IsWord w) (hu : u.toList.all isIdChar) :
    IsWord (w ++ u) where
  nonempty := by simp [hw.nonempty]
  chars := by rw [String.toList_append, List.all_append, hw.chars, hu, Bool.true_and]

theorem isIdChar_toDigits (n : Nat) : (Nat.toDigits 10 n).all isIdChar :=
  List.all_eq_true.mpr fun _ hc => isIdChar_of_isDigit (isDigit_of_mem_toDigits _ hc)

theorem IsPlain.isWord_dollar (hx : IsPlain x) : IsWord ("$" ++ x) :=
  .append (by decide) hx.isWord.chars

theorem isWord_label (l : Label) : IsWord l.text := by
  have hdigits : ∀ n : Nat, (toString n).toList.all isIdChar := fun n =>
    Nat.toList_repr (n := n) ▸ isIdChar_toDigits n
  cases l with
  | exit n => exact .append (by decide) (hdigits n)
  | loop n => exact .append (by decide) (hdigits n)

theorem isWord_integer (v : Int32) : IsWord (toString v.toInt) := by
  obtain ⟨n, _, _, htext⟩ | ⟨n, _, _, htext⟩ := toString_toInt_cases v
  case inl =>
    exact ⟨htext ▸ Nat.toDigits_ne_nil, htext ▸ isIdChar_toDigits n⟩
  case inr =>
    refine ⟨htext ▸ List.cons_ne_nil _ _, ?_⟩
    rw [htext, List.all_cons, isIdChar_toDigits n]
    decide

theorem integer?_text (v : Int32) : integer? (toString v.toInt) = some v := by
  obtain ⟨n, hn, rfl, htext⟩ | ⟨n, hn, rfl, htext⟩ := toString_toInt_cases v
  case inl =>
    have hlt : n < 4294967296 := by omega
    rw [integer?, htext]
    split
    case h_1 ds hds =>
      have := isDigit_of_mem_toDigits (n := n) '-' (hds ▸ List.mem_cons_self)
      exact absurd this (by decide)
    case h_2 => simp [natural?_toDigits, hlt]
  case inr =>
    rw [integer?, htext]
    simp [natural?_toDigits, hn]

theorem label?_text (l : Label) : label? l.text = some l := by
  cases l with
  | exit n =>
    have htext : (Label.exit n).text.toList
        = '$' :: 'e' :: 'x' :: 'i' :: 't' :: '_' :: Nat.toDigits 10 n := by simp [Label.text]
    simp [label?, htext, natural?_toDigits]
  | loop n =>
    have htext : (Label.loop n).text.toList
        = '$' :: 'l' :: 'o' :: 'o' :: 'p' :: '_' :: Nat.toDigits 10 n := by simp [Label.text]
    simp [label?, htext, natural?_toDigits]

theorem name?_dollar (hx : IsPlain x) : name? ("$" ++ x) = some x := by
  have htext : ("$" ++ x).toList = '$' :: x.toList := String.toList_append
  cases hd : x.toList with
  | nil => exact absurd hd hx.nonempty
  | cons c cs =>
    simp only [name?, htext, hd]
    rw [← hd, String.ofList_toList]

end Words

end Wat

end Imp
