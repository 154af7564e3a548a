import Imp.Ordered

/-!
What is found under a name, and after a value has been put under one.
-/

namespace Imp

namespace Ordered

variable {α : Type} {x y : String} {v : α} {es es' : List (String × α)}

theorem lookup_cons_of_ne {e : String × α} (h : y ≠ e.1) : (e :: es).lookup y = es.lookup y := by
  cases e
  simp [List.lookup_cons, beq_eq_false_iff_ne.mpr h]

theorem lookup_insert_self : (insert x v es).lookup x = some v := by
  induction es with
  | nil => simp [insert]
  | cons e es ih =>
    simp only [insert]
    split
    case isTrue => simp
    case isFalse =>
      split
      case isTrue => simp
      case isFalse hne => rw [lookup_cons_of_ne hne, ih]

theorem lookup_insert_of_ne (h : y ≠ x) : (insert x v es).lookup y = es.lookup y := by
  induction es with
  | nil => simp [insert, lookup_cons_of_ne (e := (x, v)) h]
  | cons e es ih =>
    simp only [insert]
    split
    case isTrue => exact lookup_cons_of_ne h
    case isFalse =>
      split
      case isTrue heq => rw [lookup_cons_of_ne h, lookup_cons_of_ne (heq ▸ h)]
      case isFalse => cases e; simp [List.lookup_cons, ih]

-- Of two values under one name the second stays.
theorem insert_insert {v' : α} : insert x v (insert x v' es) = insert x v es := by
  induction es with
  | nil => simp [insert]
  | cons e es ih => grind [insert]

theorem lookup_cons_self {e : String × α} : (e :: es).lookup e.1 = some e.2 := by
  cases e
  simp

theorem mem_of_lookup (h : es.lookup x = some v) : (x, v) ∈ es := by
  obtain ⟨before, after, rfl, -⟩ := List.lookup_eq_some_iff.mp h
  simp

namespace Sorted

theorem tail {e : String × α} (h : Sorted (e :: es)) : Sorted es :=
  (List.pairwise_cons.mp h).2

theorem nodup (h : Sorted es) : es.Nodup := by
  refine List.Pairwise.imp (fun {a b} hlt => ?_) h
  rintro rfl
  exact String.lt_irrefl a.1 hlt

end Sorted

-- A name that comes before all others is not found.
theorem lookup_eq_none_of_lt (h : ∀ e ∈ es, x < e.1) : es.lookup x = none := by
  rw [List.lookup_eq_none_iff]
  intro e he
  have hne : x ≠ e.1 := fun heq => String.lt_irrefl x (by simpa [← heq] using h e he)
  simpa using hne

theorem mem_iff_lookup (h : Sorted es) : (x, v) ∈ es ↔ es.lookup x = some v := by
  induction es with
  | nil => simp
  | cons e es ih =>
    have ih := ih h.tail
    by_cases hx : x = e.1
    case pos =>
      subst hx
      have hnone := lookup_eq_none_of_lt (List.pairwise_cons.mp h).1
      rw [List.mem_cons, ih, hnone, lookup_cons_self]
      grind
    case neg =>
      have hne : (x, v) ≠ e := fun heq => hx (by rw [← heq])
      rw [lookup_cons_of_ne hx, ← ih, List.mem_cons, or_iff_right hne]

theorem replace_fst (h : Sorted es) : (replace x v es).1 = es.lookup x := by
  induction es with
  | nil => rfl
  | cons e es ih =>
    simp only [replace]
    split
    case isTrue hlt =>
      refine (lookup_eq_none_of_lt fun f hf => ?_).symm
      cases List.mem_cons.mp hf with
      | inl hf => exact hf ▸ hlt
      | inr hf => exact String.lt_trans hlt ((List.pairwise_cons.mp h).1 f hf)
    case isFalse =>
      split
      case isTrue heq => rw [heq, lookup_cons_self]
      case isFalse hne => rw [lookup_cons_of_ne hne, ← ih h.tail]

-- What is found under each name makes out the list.
theorem Sorted.ext (h : Sorted es) (h' : Sorted es') (heq : ∀ x, es.lookup x = es'.lookup x) :
    es = es' := by
  have hperm : es.Perm es' := (List.perm_ext_iff_of_nodup h.nodup h'.nodup).mpr fun (x, v) => by
    rw [mem_iff_lookup h, mem_iff_lookup h', heq]
  exact hperm.eq_of_pairwise (fun _ _ _ _ hlt hgt => absurd hgt (String.lt_asymm hlt)) h h'

end Ordered

end Imp
