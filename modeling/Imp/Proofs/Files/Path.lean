import Imp.Files.Disk

/-!
The parts of paths that are joined, and of the paths above one.
-/

namespace Imp

namespace Path

variable {cs ds w : List Char} {p q n : String} {ps : List String}

theorem split_ne_nil (cs : List Char) : split cs ≠ [] := by
  cases cs with
  | nil => simp [split]
  | cons c cs =>
    simp only [split]
    split
    case isTrue => exact List.cons_ne_nil _ _
    case isFalse => split <;> exact List.cons_ne_nil _ _

theorem split_of_not_mem (h : '/' ∉ cs) : split cs = [cs] := by
  induction cs with
  | nil => rfl
  | cons c cs ih =>
    rw [List.mem_cons, not_or] at h
    simp [split, Ne.symm h.1, ih h.2]

theorem split_append_slash (cs ds : List Char) :
    split (cs ++ '/' :: ds) = split cs ++ split ds := by
  induction cs with
  | nil => simp [split]
  | cons c cs ih =>
    simp only [List.cons_append, split, ih]
    split
    case isTrue => rfl
    case isFalse =>
      obtain ⟨w, ws, hw⟩ := List.exists_cons_of_ne_nil (split_ne_nil cs)
      simp [hw]

theorem slash_not_mem_split (h : w ∈ split cs) : '/' ∉ w := by
  induction cs generalizing w with
  | nil => simp_all [split]
  | cons c cs ih =>
    obtain ⟨v, vs, hv⟩ := List.exists_cons_of_ne_nil (split_ne_nil cs)
    rw [hv] at ih
    simp only [split, hv] at h
    split at h
    case isTrue => cases List.mem_cons.mp h with
      | inl h => simp [h]
      | inr h => exact ih h
    case isFalse hc => cases List.mem_cons.mp h with
      | inl h => simp [h, Ne.symm hc, ih List.mem_cons_self]
      | inr h => exact ih (List.mem_cons_of_mem v h)

theorem parts_of_not_mem (h : '/' ∉ p.toList) : parts p = [p] := by
  simp [parts, split_of_not_mem h]

@[simp]
theorem parts_empty : parts "" = [""] :=
  rfl

theorem parts_append_slash (p q : String) : parts (p ++ "/" ++ q) = parts p ++ parts q := by
  simp [parts, split_append_slash]

theorem parts_behind (ds : List Char) (h : '/' ∉ n.toList) :
    parts (String.ofList (ds ++ ['/']) ++ n) = parts (String.ofList ds) ++ [n] := by
  rw [String.ofList_append, ← parts_of_not_mem h, ← parts_append_slash]

theorem slash_not_mem_parts (h : n ∈ parts p) : '/' ∉ n.toList := by
  obtain ⟨w, hw, rfl⟩ := List.mem_map.mp h
  simpa using slash_not_mem_split hw

theorem parts_intercalate (hne : ps ≠ []) (h : ∀ n ∈ ps, '/' ∉ n.toList) :
    parts ("/".intercalate ps) = ps := by
  induction ps with
  | nil => exact absurd rfl hne
  | cons n ps ih =>
    rw [List.forall_mem_cons] at h
    cases ps with
    | nil => simp [parts_of_not_mem h.1]
    | cons m ps =>
      rw [String.intercalate_cons_cons, parts_append_slash, parts_of_not_mem h.1,
        ih (List.cons_ne_nil m ps) h.2, List.singleton_append]

theorem isAbsolute_iff : isAbsolute p = true ↔ ∃ q qs, parts p = "" :: q :: qs := by
  cases h : p.toList with
  | nil => simp [isAbsolute, parts, h, split]
  | cons c cs =>
    obtain ⟨w, ws, hw⟩ := List.exists_cons_of_ne_nil (split_ne_nil cs)
    by_cases hc : c = '/' <;> simp [isAbsolute, parts, h, split, hw, hc, String.ofList_eq_empty_iff]

theorem parts_ne_nil (p : String) : parts p ≠ [] :=
  fun h => split_ne_nil p.toList (List.map_eq_nil_iff.mp h)

theorem isAbsolute_iff_head?_parts (h : p ≠ "") :
    isAbsolute p = true ↔ (parts p).head? = some "" := by
  cases hp : p.toList with
  | nil => exact absurd (String.toList_eq_nil_iff.mp hp) h
  | cons c cs =>
    obtain ⟨w, ws, hw⟩ := List.exists_cons_of_ne_nil (split_ne_nil cs)
    by_cases hc : c = '/' <;> simp [isAbsolute, parts, hp, split, hw, hc, String.ofList_eq_empty_iff]

theorem isAbsolute_of_not_mem (h : '/' ∉ p.toList) : isAbsolute p = false := by
  cases hp : p.toList with
  | nil => simp [isAbsolute, hp]
  | cons c cs =>
    rw [hp, List.mem_cons, not_or] at h
    simpa [isAbsolute, hp] using Ne.symm h.1

-- The text in front of what is joined to a path.
def front (p : String) : String :=
  if p.isEmpty || p.toList.getLast? = some '/' then p else p ++ "/"

-- The parts in front of what is joined to a path.
def base (p : String) : List String :=
  (parts (front p)).dropLast

theorem join_eq (h : isAbsolute q = false) : join p q = front p ++ q := by
  simp only [join, front, h, Bool.false_or]
  split <;> simp

theorem front_cases (p : String) : front p = "" ∨ ∃ q, front p = q ++ "/" := by
  by_cases hp : p = ""
  case pos => simp [front, hp]
  case neg =>
    by_cases hlast : p.toList.getLast? = some '/'
    case pos =>
      have ⟨cs, hcs⟩ := List.getLast?_eq_some_iff.mp hlast
      refine .inr ⟨String.ofList cs, ?_⟩
      rw [front, if_pos (by simp [hlast]), ← String.toList_inj]
      simpa using hcs
    case neg => exact .inr ⟨p, by simp [front, hp, hlast]⟩

theorem parts_join (h : isAbsolute q = false) : parts (join p q) = base p ++ parts q := by
  rw [join_eq h, base]
  obtain hfront | ⟨r, hfront⟩ := front_cases p
  case inl => simp [hfront]
  case inr =>
    have hparts : parts (r ++ "/") = parts r ++ [""] := by simpa using parts_append_slash r ""
    simp [hfront, hparts, parts_append_slash]

theorem front_join {q : String} (hne : q ≠ "") (hslash : '/' ∉ q.toList) :
    front (join p q) = front p ++ q ++ "/" := by
  have hlast : q.toList.getLast? ≠ some '/' := fun h => hslash (List.mem_of_getLast? h)
  rw [join_eq (isAbsolute_of_not_mem hslash), front, if_neg]
  simp [hne, hlast]

theorem base_join {q : String} (hne : q ≠ "") (hslash : '/' ∉ q.toList) :
    base (join p q) = base p ++ [q] := by
  have hrel := isAbsolute_of_not_mem hslash
  have hparts : parts (join p q ++ "/") = parts (join p q) ++ [""] := by
    simpa using parts_append_slash (join p q) ""
  rw [base, front_join hne hslash, ← join_eq hrel, hparts, List.dropLast_concat, parts_join hrel,
    parts_of_not_mem hslash]

-- What a path starts with is told by the parts in front of a name.
theorem isAbsolute_iff_head? {as : List String} {b : String} (hb : b ≠ "")
    (h : parts p = as ++ b :: ps) : isAbsolute p = true ↔ as.head? = some "" := by
  rw [isAbsolute_iff, h]
  cases as with
  | nil => simp [hb]
  | cons a as => cases as <;> simp

theorem isAbsolute_iff_head?_concat {as : List String} {b : String} (h : parts p = as ++ [b]) :
    isAbsolute p = true ↔ as.head? = some "" := by
  rw [isAbsolute_iff, h]
  cases as with
  | nil => simp
  | cons a as => cases as <;> simp

end Path

end Imp
