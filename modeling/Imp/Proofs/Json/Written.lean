import Imp.Proofs.Json.Drafts

/-!
Written JSON reads back: in a layout that fills in blanks only, the text of a document is read as
the draft of that document, and the draft is sound if the brackets around it allow for its depth.
-/

namespace Imp

namespace Json

open Lexeme Draft

mutual

-- The draft of a document that does not break off.
def draft : Json → Draft
  | null => .scalar .null
  | bool b => .scalar (.bool b)
  | int n => .scalar (.num (.int n))
  | str s => .scalar (.str (some s))
  | arr vs => .arr (drafts vs)
  | obj fs => .obj (fieldDrafts fs)

def drafts : List Json → List Draft
  | [] => []
  | v :: vs => v.draft :: drafts vs

def fieldDrafts : List (String × Json) → List (Option String × Draft)
  | [] => []
  | (k, v) :: fs => (some k, v.draft) :: fieldDrafts fs

end

mutual

-- How many brackets stand inside one another.
def depth : Json → Nat
  | arr vs => depths vs + 1
  | obj fs => fieldDepths fs + 1
  | _ => 0

def depths : List Json → Nat
  | [] => 0
  | v :: vs => max v.depth (depths vs)

def fieldDepths : List (String × Json) → Nat
  | [] => 0
  | (_, v) :: fs => max v.depth (fieldDepths fs)

end

-- Integers that a reader takes as such.
def Legible (n : Int) : Prop :=
  n.natAbs ≤ maxSignificand

mutual

-- All integers of the document are taken as such by a reader.
def AllLegible : Json → Prop
  | int n => Legible n
  | arr vs => ItemsLegible vs
  | obj fs => FieldsLegible fs
  | _ => True

def ItemsLegible : List Json → Prop
  | [] => True
  | v :: vs => v.AllLegible ∧ ItemsLegible vs

def FieldsLegible : List (String × Json) → Prop
  | [] => True
  | (_, v) :: fs => v.AllLegible ∧ FieldsLegible fs

end

-- White space is all that a layout adds to the marks.
structure Layout.Blank (l : Layout) : Prop where
  newline : ∀ depth, ∀ c ∈ l.newline depth, isBlank c
  afterColon : ∀ c ∈ l.afterColon, isBlank c

theorem Layout.blank_compact : Layout.compact.Blank where
  newline _ := nofun
  afterColon := nofun

theorem Layout.blank_pretty : Layout.pretty.Blank where
  newline depth := by simp [Layout.pretty, isBlank]
  afterColon := by simp [Layout.pretty, isBlank]

section Sound

mutual

theorem document_draft : ∀ j : Json, j.draft.Document
  | null | bool _ | int _ | str _ => .scalar rfl
  | arr vs => .arr (document_drafts vs)
  | obj fs => .obj (document_fieldDrafts fs).1 (document_fieldDrafts fs).2

theorem document_drafts : ∀ (vs : List Json), ∀ d ∈ drafts vs, d.Document
  | [] => nofun
  | v :: vs => List.forall_mem_cons.mpr ⟨document_draft v, document_drafts vs⟩

theorem document_fieldDrafts : ∀ fs : List (String × Json),
    (∀ f ∈ fieldDrafts fs, f.1.isSome) ∧ ∀ f ∈ fieldDrafts fs, f.2.Document
  | [] => ⟨nofun, nofun⟩
  | (_, v) :: fs =>
    have ⟨hkeys, hvalues⟩ := document_fieldDrafts fs
    ⟨List.forall_mem_cons.mpr ⟨rfl, hkeys⟩, List.forall_mem_cons.mpr ⟨document_draft v, hvalues⟩⟩

end

mutual

theorem depth_draft : ∀ j : Json, j.draft.depth = j.depth
  | null | bool _ | int _ | str _ => rfl
  | arr vs => congrArg (· + 1) (depths_drafts vs)
  | obj fs => congrArg (· + 1) (fieldDepths_fieldDrafts fs)

theorem depths_drafts : ∀ vs : List Json, Draft.depths (drafts vs) = depths vs
  | [] => rfl
  | v :: vs => congrArg₂ max (depth_draft v) (depths_drafts vs)

theorem fieldDepths_fieldDrafts :
    ∀ fs : List (String × Json), Draft.fieldDepths (fieldDrafts fs) = fieldDepths fs
  | [] => rfl
  | (_, v) :: fs => congrArg₂ max (depth_draft v) (fieldDepths_fieldDrafts fs)

end

theorem isSound_draft (n : Nat) (j : Json) : j.draft.isSound n ↔ j.depth ≤ n := by
  rw [(document_draft j).isSound_iff, depth_draft]

end Sound

section Write

variable {l : Layout}

theorem hexDigit?_digitChar : ∀ n < 16, hexDigit? n.digitChar = some n := by decide

theorem charText_escape (c : Char) : CharText c (escape c) := by
  fun_cases escape c
  case case8 hc =>
    refine .unit ?_
    have hzero : hexDigit? '0' = some 0 := hexDigit?_digitChar 0 (by decide)
    have hdiv := hexDigit?_digitChar (c.toNat / 16) (by omega)
    have hmod := hexDigit?_digitChar (c.toNat % 16) (by omega)
    simp [hex4?, hzero, hdiv, hmod]
    omega
  case case9 hquote hslash _ _ _ _ _ hc => exact .raw hquote hslash hc
  all_goals
    rename_i h
    subst h
    exact .escaped rfl

theorem lexemeText_quote (s : String) : LexemeText (.scalar (.str (some s))) (quote s) := by
  have hstring : ∀ cs : List Char, StringText cs (cs.flatMap escape ++ ['"']) := by
    intro cs
    induction cs with
    | nil => exact .nil
    | cons c cs ih =>
      rw [List.flatMap_cons, List.append_assoc]
      exact .cons (charText_escape c) ih
  exact .str (hstring s.toList)

theorem le_ofDigitChars (ds : List Char) (s : Nat) : s ≤ Nat.ofDigitChars 10 ds s := by
  induction ds generalizing s with
  | nil => exact Nat.le_refl s
  | cons c ds ih =>
    rw [Nat.ofDigitChars_cons]
    have := ih (10 * s + (c.toNat - '0'.toNat))
    omega

theorem appendDigits_eq {ds : List Char} {s : Nat} (h : Nat.ofDigitChars 10 ds s ≤ maxSignificand) :
    appendDigits s ds = (Nat.ofDigitChars 10 ds s, ds.length) := by
  induction ds generalizing s with
  | nil => rfl
  | cons c ds ih =>
    rw [Nat.ofDigitChars_cons] at h ⊢
    have hle := Nat.le_trans (le_ofDigitChars ds _) h
    unfold appendDigits
    simp only [if_pos hle, ih h, List.length_cons]

theorem isWhole_toDigits (n : Nat) : Lexeme.isWhole (Nat.toDigits 10 n) := by
  by_cases hn : n = 0
  case pos => subst hn; decide
  case neg =>
    cases hd : Nat.toDigits 10 n with
    | nil => exact (Nat.toDigits_ne_nil hd).elim
    | cons c w =>
      have hc : c ≠ '0' := fun h => hn (eq_zero_of_head_toDigits (by rw [hd, h]; rfl))
      unfold Lexeme.isWhole
      split <;> simp_all

theorem numeral_toDigits {negative : Bool} {n : Nat} (hn : n ≤ maxSignificand)
    (hneg : negative → n ≠ 0) :
    numeral negative false (Nat.toDigits 10 n) [] 0 = .int (if negative then -n else n) := by
  have hdigits : appendDigits 0 (Nat.toDigits 10 n) = (n, (Nat.toDigits 10 n).length) := by
    have hvalue := @Nat.ofDigitChars_ten_toDigits n
    rw [appendDigits_eq (hvalue.symm ▸ hn), hvalue]
  have hhuge : isHuge n 0 = false := by simp [isHuge]
  simp [numeral, hdigits, appendDigits, hhuge]
  exact hneg

theorem numberText_toDigits (negative : Bool) {n : Nat} (hn : n ≤ maxSignificand)
    (hneg : negative → n ≠ 0) : NumberText (.int (if negative then -n else n))
      ((if negative then ['-'] else []) ++ Nat.toDigits 10 n) := by
  have hdigits : Digits (Nat.toDigits 10 n) := ⟨Nat.toDigits_ne_nil, isDigit_of_mem_toDigits⟩
  have htext := @NumberText.mk negative _ _ _ _ _ hdigits (isWhole_toDigits n) .absent .absent
  rw [List.append_nil, List.append_nil] at htext
  rwa [← numeral_toDigits hn hneg]

theorem lexemeText_number {n : Int} (hn : Legible n) :
    LexemeText (.scalar (.num (.int n))) (number n) := by
  cases n with
  | ofNat n => exact .num (numberText_toDigits false hn nofun)
  | negSucc n => exact .num (numberText_toDigits true (n := n + 1) hn nofun)

theorem write_arr (l : Layout) (depth : Nat) (v : Json) (vs : List Json) (rest : List Char) :
    (arr (v :: vs)).write l depth rest = '[' :: l.newline (depth + 1) ++ v.write l (depth + 1)
      (writeItems l (depth + 1) vs (l.newline depth ++ ']' :: rest)) :=
  rfl

theorem write_obj (l : Layout) (depth : Nat) (k : String) (v : Json) (fs : List (String × Json))
    (rest : List Char) : (obj ((k, v) :: fs)).write l depth rest =
      '\x7b' :: l.newline (depth + 1) ++ quote k ++ ':' :: l.afterColon ++ v.write l (depth + 1)
        (writeFields l (depth + 1) fs (l.newline depth ++ '\x7d' :: rest)) :=
  rfl

mutual

-- The text of a document, in front of the text for what follows.
theorem texts_write (hl : l.Blank) {ls : List Lexeme} {rest : List Char} (depth : Nat)
    (h : Texts ls rest) : ∀ j : Json, j.AllLegible →
    Texts (j.draft.lexemes ++ ls) (j.write l depth rest)
  | null, _ => .cons .null h
  | bool true, _ => .cons .wordTrue h
  | bool false, _ => .cons .wordFalse h
  | int n, hn => .cons (lexemeText_number hn) h
  | str s, _ => .cons (lexemeText_quote s) h
  | arr [], _ => .cons .openArr (.cons .closeArr h)
  | obj [], _ => .cons .openObj (.cons .closeObj h)
  | arr (v :: vs), ⟨hv, hvs⟩ => by
    have hclose : Texts (.closeArr :: ls) (l.newline depth ++ ']' :: rest) :=
      .blanks (hl.newline depth) (.cons .closeArr h)
    have hitems := texts_writeItems hl (depth + 1) hclose vs hvs
    rw [draft, drafts, lexemes, write_arr]
    simp only [List.cons_append, List.append_assoc]
    exact .cons .openArr (.blanks (hl.newline _) (texts_write hl (depth + 1) hitems v hv))
  | obj ((k, v) :: fs), ⟨hv, hfs⟩ => by
    have hclose : Texts (.closeObj :: ls) (l.newline depth ++ '\x7d' :: rest) :=
      .blanks (hl.newline depth) (.cons .closeObj h)
    have hfields := texts_writeFields hl (depth + 1) hclose fs hfs
    have hvalue := texts_write hl (depth + 1) hfields v hv
    rw [draft, fieldDrafts, lexemes, write_obj]
    simp only [List.cons_append, List.append_assoc]
    exact .cons .openObj (.blanks (hl.newline _) (.cons (lexemeText_quote k)
      (.cons .colon (.blanks hl.afterColon hvalue))))

theorem texts_writeItems (hl : l.Blank) {ls : List Lexeme} {rest : List Char} (depth : Nat)
    (h : Texts (.closeArr :: ls) rest) : ∀ vs : List Json, ItemsLegible vs →
    Texts (moreItems (drafts vs) ++ ls) (writeItems l depth vs rest)
  | [], _ => h
  | v :: vs, ⟨hv, hvs⟩ => by
    have hitems := texts_writeItems hl depth h vs hvs
    rw [drafts, moreItems, writeItems]
    simp only [List.cons_append, List.append_assoc]
    exact .cons .comma (.blanks (hl.newline _) (texts_write hl depth hitems v hv))

theorem texts_writeFields (hl : l.Blank) {ls : List Lexeme} {rest : List Char} (depth : Nat)
    (h : Texts (.closeObj :: ls) rest) : ∀ fs : List (String × Json), FieldsLegible fs →
    Texts (moreFields (fieldDrafts fs) ++ ls) (writeFields l depth fs rest)
  | [], _ => h
  | (k, v) :: fs, ⟨hv, hfs⟩ => by
    have hfields := texts_writeFields hl depth h fs hfs
    have hvalue := texts_write hl depth hfields v hv
    rw [fieldDrafts, moreFields, writeFields]
    simp only [List.cons_append, List.append_assoc]
    exact .cons .comma (.blanks (hl.newline _) (.cons (lexemeText_quote k)
      (.cons .colon (.blanks hl.afterColon hvalue))))

end

theorem read_text {j : Json} (hl : l.Blank) (hj : j.AllLegible) :
    read (String.ofList (j.write l 0 [])) = ⟨j.draft, false⟩ := by
  have htexts := texts_write hl 0 .nil j hj
  rw [List.append_nil] at htexts
  refine read_of_texts (document_draft j).isWhole ?_
  rwa [String.toList_ofList]

end Write

end Json

end Imp
