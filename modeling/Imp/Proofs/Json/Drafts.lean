import Imp.Proofs.Json.Text

/-!
The lexemes of a draft. A text that is written for them is read as the draft, if that does not break
off. What a reader can follow of a document is a matter of its depth.
-/

namespace Imp

namespace Json

open Lexeme

namespace Draft

mutual

-- The lexemes of a draft.
def lexemes : Draft → List Lexeme
  | scalar v => [.scalar v]
  | arr [] => [.openArr, .closeArr]
  | arr (d :: ds) => .openArr :: (d.lexemes ++ moreItems ds)
  | obj [] => [.openObj, .closeObj]
  | obj ((k, d) :: kvs) =>
    .openObj :: .scalar (.str k) :: .colon :: (d.lexemes ++ moreFields kvs)
  | broken => [.bad]

-- The lexemes behind an item of an array.
def moreItems : List Draft → List Lexeme
  | [] => [.closeArr]
  | d :: ds => .comma :: (d.lexemes ++ moreItems ds)

-- The lexemes behind a field of an object.
def moreFields : List (Option String × Draft) → List Lexeme
  | [] => [.closeObj]
  | (k, d) :: kvs =>
    .comma :: .scalar (.str k) :: .colon :: (d.lexemes ++ moreFields kvs)

end

mutual

-- How many brackets stand inside one another.
def depth : Draft → Nat
  | arr ds => depths ds + 1
  | obj kvs => fieldDepths kvs + 1
  | _ => 0

def depths : List Draft → Nat
  | [] => 0
  | d :: ds => max d.depth (depths ds)

def fieldDepths : List (Option String × Draft) → Nat
  | [] => 0
  | (_, d) :: kvs => max d.depth (fieldDepths kvs)

end

-- A draft of a whole text, of which all strings and numbers can be read.
inductive Document : Draft → Prop
  | scalar {v} (sound : v.isSound) : Document (.scalar v)
  | arr {ds} (items : ∀ d ∈ ds, Document d) : Document (.arr ds)
  | obj {kvs} (keys : ∀ f ∈ kvs, f.1.isSome) (values : ∀ f ∈ kvs, Document f.2) :
      Document (.obj kvs)

section

variable {d : Draft} {ds : List Draft} {kvs : List (Option String × Draft)} {n : Nat}

theorem depths_le_iff : depths ds ≤ n ↔ ∀ d ∈ ds, d.depth ≤ n := by
  induction ds with
  | nil => simp [depths]
  | cons d ds ih => rw [depths, Nat.max_le, ih, List.forall_mem_cons]

theorem fieldDepths_le_iff : fieldDepths kvs ≤ n ↔ ∀ f ∈ kvs, f.2.depth ≤ n := by
  induction kvs with
  | nil => simp [fieldDepths]
  | cons f kvs ih => rw [fieldDepths, Nat.max_le, ih, List.forall_mem_cons]

-- A bracket and what is inside of it.
theorem exists_of_depth_arr (h : (Draft.arr ds).depth ≤ n) :
    ∃ m, n = m + 1 ∧ ∀ d ∈ ds, d.depth ≤ m := by
  rw [depth] at h
  exact ⟨n - 1, by omega, depths_le_iff.mp (by omega)⟩

theorem exists_of_depth_obj (h : (Draft.obj kvs).depth ≤ n) :
    ∃ m, n = m + 1 ∧ ∀ f ∈ kvs, f.2.depth ≤ m := by
  rw [depth] at h
  exact ⟨n - 1, by omega, fieldDepths_le_iff.mp (by omega)⟩

@[simp]
theorem document_scalar_iff {v : Scalar} : (Draft.scalar v).Document ↔ v.isSound :=
  ⟨fun h => by cases h; assumption, .scalar⟩

@[simp]
theorem document_arr_iff : (Draft.arr ds).Document ↔ ∀ d ∈ ds, d.Document :=
  ⟨fun h => by cases h; assumption, .arr⟩

namespace Document

theorem value (h : (Draft.obj kvs).Document) {f : Option String × Draft} (hf : f ∈ kvs) :
    f.2.Document := by
  cases h with
  | obj _ values => exact values f hf

-- A document is too deep for a reader, or it can be read.
theorem isSound_iff (h : d.Document) : d.isSound n ↔ d.depth ≤ n := by
  induction h generalizing n with
  | scalar hv => simpa [isSound, depth] using hv
  | @arr ds _ ih =>
    cases n with
    | zero => simp [isSound, depth]
    | succ n =>
      simp only [isSound, depth, List.all_eq_true, Nat.add_le_add_iff_right, depths_le_iff]
      exact forall₂_congr fun d hd => ih d hd
  | @obj kvs hkeys _ ih =>
    cases n with
    | zero => simp [isSound, depth]
    | succ n =>
      simp only [isSound, depth, List.all_eq_true, Nat.add_le_add_iff_right, fieldDepths_le_iff,
        Bool.and_eq_true]
      exact forall₂_congr fun f hf => (and_iff_right (hkeys f hf)).trans (ih f hf)

theorem allWhole (h : ∀ d ∈ ds, d.isWhole) : allWhole ds := by
  induction ds with
  | nil => rfl
  | cons d ds ih =>
    have ⟨hd, hds⟩ := List.forall_mem_cons.mp h
    rw [Draft.allWhole, hd, ih hds]
    rfl

theorem allFieldsWhole (h : ∀ f ∈ kvs, f.2.isWhole) : allFieldsWhole kvs := by
  induction kvs with
  | nil => rfl
  | cons f kvs ih =>
    have ⟨hf, hkvs⟩ := List.forall_mem_cons.mp h
    rw [Draft.allFieldsWhole, hf, ih hkvs]
    rfl

theorem isWhole (h : d.Document) : d.isWhole := by
  induction h with
  | scalar => rfl
  | arr _ ih => exact allWhole ih
  | obj _ _ ih => exact allFieldsWhole ih

end Document

end

end Draft

section Parted

variable {l : Lexeme} {ls : List Lexeme}

theorem Parted.cons (hl : ∀ v, l ≠ .scalar v) (h : Parted ls) : Parted (l :: ls) :=
  List.isChain_cons.mpr ⟨fun _ _ ⟨v, hv⟩ => absurd hv (hl v), h⟩

theorem Parted.cons_scalar {v : Scalar} (hls : ∀ l ∈ ls.head?, l.IsMark) (h : Parted ls) :
    Parted (.scalar v :: ls) :=
  List.isChain_cons.mpr ⟨fun l hl _ => hls l hl, h⟩

namespace Draft

theorem isMark_moreItems (ds : List Draft) (ls : List Lexeme) :
    ∀ l ∈ (moreItems ds ++ ls).head?, l.IsMark := by
  cases ds <;> rintro _ ⟨⟩ <;> simp [Lexeme.IsMark]

theorem isMark_moreFields (kvs : List (Option String × Draft)) (ls : List Lexeme) :
    ∀ l ∈ (moreFields kvs ++ ls).head?, l.IsMark := by
  cases kvs <;> rintro _ ⟨⟩ <;> simp [Lexeme.IsMark]

mutual

theorem parted_lexemes {ls : List Lexeme} (hls : ∀ l ∈ ls.head?, l.IsMark) (h : Parted ls) :
    ∀ d : Draft, Parted (d.lexemes ++ ls)
  | scalar v => h.cons_scalar hls
  | arr [] | obj [] => .cons nofun (.cons nofun h)
  | arr (d :: ds) => by
    rw [lexemes, List.cons_append, List.append_assoc]
    exact .cons nofun (parted_lexemes (isMark_moreItems ds ls) (parted_moreItems h ds) d)
  | obj ((k, d) :: kvs) => by
    rw [lexemes, List.cons_append, List.cons_append, List.cons_append, List.append_assoc]
    refine .cons nofun (.cons_scalar ?_ (.cons nofun ?_))
    case refine_1 => rintro _ ⟨⟩; simp [Lexeme.IsMark]
    case refine_2 => exact parted_lexemes (isMark_moreFields kvs ls) (parted_moreFields h kvs) d
  | broken => h.cons nofun

theorem parted_moreItems {ls : List Lexeme} (h : Parted ls) :
    ∀ ds : List Draft, Parted (moreItems ds ++ ls)
  | [] => h.cons nofun
  | d :: ds => by
    rw [moreItems, List.cons_append, List.append_assoc]
    exact .cons nofun (parted_lexemes (isMark_moreItems ds ls) (parted_moreItems h ds) d)

theorem parted_moreFields {ls : List Lexeme} (h : Parted ls) :
    ∀ kvs : List (Option String × Draft), Parted (moreFields kvs ++ ls)
  | [] => h.cons nofun
  | (k, d) :: kvs => by
    rw [moreFields, List.cons_append, List.cons_append, List.cons_append, List.append_assoc]
    refine .cons nofun (.cons_scalar ?_ (.cons nofun ?_))
    case refine_1 => rintro _ ⟨⟩; simp [Lexeme.IsMark]
    case refine_2 => exact parted_lexemes (isMark_moreFields kvs ls) (parted_moreFields h kvs) d

end

end Draft

end Parted

section Read

open Draft

variable {s s' : State} {fs : List Frame} {l : Lexeme} {ls : List Lexeme}

theorem read_cons (h : s.next? l = some s') : s.read (l :: ls) = s'.read ls := by
  have ⟨_, mode⟩ := s
  cases mode with
  | done d => simp [State.next?] at h
  | _ => simp [State.read, h]

-- A state in which a value may follow.
def AwaitsValue (s : State) : Prop :=
  ∀ l s', State.atValue? s.frames l = some s' → s.next? l = some s'

theorem awaitsValue_value : AwaitsValue ⟨fs, .value⟩ := fun _ _ h => h

theorem awaitsValue_firstItem {xs : List Draft} : AwaitsValue ⟨.arr xs :: fs, .firstItem⟩ := by
  intro l s' h
  cases l with
  | closeArr => simp [State.atValue?] at h
  | _ => exact h

mutual

-- Where a value may follow, the lexemes of a draft put it in place.
theorem read_lexemes {s : State} (hs : AwaitsValue s) (ls : List Lexeme) :
    ∀ d : Draft, d.isWhole → s.read (d.lexemes ++ ls) = (State.put d s.frames).read ls
  | .scalar v, _ => read_cons (hs _ _ rfl)
  | .arr [], _ | .obj [], _ => (read_cons (hs _ _ rfl)).trans (read_cons rfl)
  | .arr (d :: ds), h => by
    have ⟨hd, hds⟩ := Bool.and_eq_true_iff.mp h
    rw [lexemes, List.cons_append, List.append_assoc, read_cons (hs _ _ rfl),
      read_lexemes awaitsValue_firstItem _ d hd, State.put, read_moreItems ls ds hds]
    rfl
  | .obj ((k, d) :: kvs), h => by
    have ⟨hd, hkvs⟩ := Bool.and_eq_true_iff.mp h
    rw [lexemes, List.cons_append, List.cons_append, List.cons_append, List.append_assoc,
      read_cons (hs _ _ rfl), read_cons rfl, read_cons rfl,
      read_lexemes awaitsValue_value _ d hd, State.put, read_moreFields ls kvs hkvs]
    rfl
  | .broken, h => nomatch h

theorem read_moreItems {xs : List Draft} {fs : List Frame} (ls : List Lexeme) :
    ∀ ds : List Draft, allWhole ds →
    State.read ⟨.arr xs :: fs, .next⟩ (moreItems ds ++ ls) =
      (State.put (.arr (xs.reverse ++ ds)) fs).read ls
  | [], _ => by
    rw [List.append_nil]
    exact read_cons rfl
  | d :: ds, h => by
    have ⟨hd, hds⟩ := Bool.and_eq_true_iff.mp h
    rw [moreItems, List.cons_append, List.append_assoc, read_cons rfl,
      read_lexemes awaitsValue_value _ d hd, State.put, read_moreItems ls ds hds]
    simp

theorem read_moreFields {fields : List (Option String × Draft)} {key : Option String}
    {fs : List Frame} (ls : List Lexeme) :
    ∀ kvs : List (Option String × Draft), allFieldsWhole kvs →
    State.read ⟨.obj fields key :: fs, .next⟩ (moreFields kvs ++ ls) =
      (State.put (.obj (fields.reverse ++ kvs)) fs).read ls
  | [], _ => by
    rw [List.append_nil]
    exact read_cons rfl
  | (k, d) :: kvs, h => by
    have ⟨hd, hkvs⟩ := Bool.and_eq_true_iff.mp h
    rw [moreFields, List.cons_append, List.cons_append, List.cons_append, List.append_assoc,
      read_cons rfl, read_cons rfl, read_cons rfl, read_lexemes awaitsValue_value _ d hd,
      State.put, read_moreFields ls kvs hkvs]
    simp

end

theorem read_of_texts {d : Draft} {text : String} (hd : d.isWhole)
    (h : Texts d.lexemes text.toList) : read text = ⟨d, false⟩ := by
  have hparted : Parted d.lexemes := by
    have hnil := @parted_lexemes [] nofun .nil d
    rwa [List.append_nil] at hnil
  have hread := read_lexemes (s := .start) awaitsValue_value [] d hd
  rw [List.append_nil] at hread
  rw [read, h.all_eq hparted, hread]
  rfl

end Read

end Json

end Imp
