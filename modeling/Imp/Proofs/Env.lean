import Imp.Env
import Imp.Proofs.Ordered

/-!
What an environment binds, after it has been changed.
-/

namespace Imp

namespace Env

@[simp]
theorem get?_empty (x : String) : empty.get? x = none :=
  rfl

@[simp]
theorem get?_set_self (env : Env) (x : String) (v : Int32) : (env.set x v).get? x = some v :=
  Ordered.lookup_insert_self

@[simp]
theorem get?_set_of_ne {env : Env} {x y : String} {v : Int32} (h : y ≠ x) :
    (env.set x v).get? y = env.get? y :=
  Ordered.lookup_insert_of_ne h

-- The names that are bound, in their order.
def names (env : Env) : List String :=
  env.bindings.map Prod.fst

@[simp]
theorem names_empty : empty.names = [] :=
  rfl

theorem mem_names_iff {env : Env} {x : String} : x ∈ env.names ↔ ∃ v, env.get? x = some v := by
  rw [← Option.isSome_iff_exists, get?, List.lookup_isSome_iff]
  simp [names]

theorem mem_names_set {env : Env} {x y : String} {v : Int32} :
    y ∈ (env.set x v).names ↔ y = x ∨ y ∈ env.names := by
  by_cases h : y = x <;> simp [mem_names_iff, h]

end Env

end Imp
