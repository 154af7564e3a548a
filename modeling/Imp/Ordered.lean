/-!
Lists of pairs in increasing order of their names. Strings are ordered by their characters, which is
also the order of their bytes.
-/

namespace Imp

namespace Ordered

variable {α : Type}

-- Names increase.
def Sorted (es : List (String × α)) : Prop :=
  es.Pairwise fun a b => a.1 < b.1

-- Puts a value under a name, in place of the one that it had.
def insert (x : String) (v : α) : List (String × α) → List (String × α)
  | [] => [(x, v)]
  | (y, w) :: es =>
    if x < y then (x, v) :: (y, w) :: es
    else if x = y then (x, v) :: es
    else (y, w) :: insert x v es

-- Puts a value under a name, and gives back the one that it had.
def replace (x : String) (v : α) : List (String × α) → Option α × List (String × α)
  | [] => (none, [(x, v)])
  | (y, w) :: es =>
    if x < y then (none, (x, v) :: (y, w) :: es)
    else if x = y then (some w, (x, v) :: es)
    else
      let (before, es) := replace x v es
      (before, (y, w) :: es)

theorem replace_snd {x} {v : α} {es} : (replace x v es).2 = insert x v es := by
  induction es with
  | nil => rfl
  | cons e es ih => grind [insert, replace]

theorem mem_insert {x v} {e : String × α} {es} (h : e ∈ insert x v es) : e = (x, v) ∨ e ∈ es := by
  induction es with
  | nil => exact .inl (List.mem_singleton.mp h)
  | cons f es ih => grind [insert]

theorem Sorted.insert {x} {v : α} {es} (h : Sorted es) : Sorted (insert x v es) := by
  induction es with
  | nil => exact List.pairwise_singleton ..
  | cons e es ih =>
    have ⟨he, hes⟩ := List.pairwise_cons.mp h
    simp only [Ordered.insert]
    split
    case isTrue hlt =>
      refine List.pairwise_cons.mpr ⟨fun b hb => ?_, h⟩
      cases List.mem_cons.mp hb
      case inl hb => exact hb ▸ hlt
      case inr hb => exact String.lt_trans hlt (he b hb)
    case isFalse hlt =>
      split
      case isTrue heq => exact List.pairwise_cons.mpr ⟨fun b hb => heq ▸ he b hb, hes⟩
      case isFalse hne =>
        refine List.pairwise_cons.mpr ⟨fun b hb => ?_, ih hes⟩
        cases mem_insert hb
        case inl hb =>
          have := String.le_total e.1 x
          grind
        case inr hb => exact he b hb

end Ordered

end Imp
