import Imp.Proofs.ByteOrder
import Imp.Proofs.Env
import Imp.Proofs.Json.Saved
import Imp.Trace
import Mathlib.Data.List.Induction

/-!
Environments by what names have been set to. An environment holds, for each name that has been set,
the last value of it, in the order of the names. Its text says just that.
-/

namespace Imp

namespace Env

-- What a name has been set to last.
def lastOf (x : String) (sets : List (String × Int32)) : Option Int32 :=
  sets.reverse.lookup x

-- The environment after names have been set, one after the other.
def setAll (sets : List (String × Int32)) : Env :=
  sets.foldl (fun env (x, v) => env.set x v) empty

variable {env env' : Env} {sets : List (String × Int32)} {x : String} {v : Int32}

theorem replace_eq (env : Env) (x : String) (v : Int32) :
    env.replace x v = (env.get? x, env.set x v) := by
  simp only [replace, set, get?, Ordered.replace_fst env.sorted, Ordered.replace_snd]

theorem mem_bindings_iff : (x, v) ∈ env.bindings ↔ env.get? x = some v :=
  Ordered.mem_iff_lookup env.sorted

theorem ext_get? (h : ∀ x, env.get? x = env'.get? x) : env = env' := by
  have hbindings := Ordered.Sorted.ext env.sorted env'.sorted h
  cases env
  cases env'
  simpa using hbindings

theorem names_sorted (env : Env) : env.names.Pairwise ByteLt :=
  List.pairwise_map.mpr (List.Pairwise.imp byteLt_of_lt env.sorted)

section History

theorem setAll_concat (sets : List (String × Int32)) (x : String) (v : Int32) :
    setAll (sets ++ [(x, v)]) = (setAll sets).set x v := by
  simp [setAll]

theorem get?_setAll (sets : List (String × Int32)) (x : String) :
    (setAll sets).get? x = lastOf x sets := by
  induction sets using List.reverseRecOn with
  | nil => rfl
  | append_singleton sets set ih =>
    obtain ⟨y, v⟩ := set
    rw [setAll_concat, lastOf, List.reverse_concat]
    by_cases hx : x = y
    case pos => simp [hx]
    case neg => rw [get?_set_of_ne hx, ih, lastOf, Ordered.lookup_cons_of_ne hx]

end History

section Text

-- The draft of a document with these bindings.
def draft (env : Env) : Json.Draft :=
  .obj (env.bindings.map fun (x, v) => (some x, .scalar (.num (.int v.toInt))))

theorem draft_json (env : Env) : env.json.draft = env.draft := by
  have hfields : ∀ bindings : List (String × Int32),
      Json.fieldDrafts (bindings.map fun (x, v) => (x, .int v.toInt)) =
        bindings.map fun (x, v) => (some x, .scalar (.num (.int v.toInt))) := by
    intro bindings
    induction bindings with
    | nil => rfl
    | cons b bindings ih => simp [Json.fieldDrafts, Json.draft, ih]
  rw [json, Json.draft, hfields, draft]

theorem allLegible_json (env : Env) : env.json.AllLegible := by
  have hfields : ∀ bindings : List (String × Int32),
      Json.FieldsLegible (bindings.map fun (x, v) => (x, .int v.toInt)) := by
    intro bindings
    induction bindings with
    | nil => trivial
    | cons b bindings ih => exact ⟨legible_toInt b.2, ih⟩
  exact hfields env.bindings

theorem read_compact (env : Env) : Json.read env.json.compact = ⟨env.draft, false⟩ := by
  rw [Json.compact, Json.read_text Json.Layout.blank_compact env.allLegible_json, draft_json]

theorem draft_injective (h : env.draft = env'.draft) : env = env' := by
  have hentry : Function.Injective fun (b : String × Int32) =>
      (some b.1, Json.Draft.scalar (.num (.int b.2.toInt))) := by
    rintro ⟨x, v⟩ ⟨y, w⟩ heq
    simpa [Int32.toInt_inj] using heq
  have hbindings : env.bindings = env'.bindings :=
    (List.map_inj_right hentry).mp (Json.Draft.obj.inj h)
  exact ext_get? fun x => by rw [get?, get?, hbindings]

theorem compact_eq_iff :
    env.json.compact = env'.json.compact ↔ ∀ x, env.get? x = env'.get? x := by
  refine ⟨fun h x => ?_, fun h => by rw [ext_get? h]⟩
  have hread := (read_compact env).symm.trans (h ▸ read_compact env')
  rw [draft_injective (congrArg Json.Reading.draft hread)]

end Text

-- Setting gives back what the name was set to before. An environment has the last value for each
-- name that has been set, once, in the order of their bytes, and nothing else; its text is read as
-- these pairs, and tells no more than what is bound.
theorem setAll_canonical (sets : List (String × Int32)) :
    (∀ x v, (setAll sets).replace x v = (lastOf x sets, setAll (sets ++ [(x, v)]))) ∧
    (∀ x, (setAll sets).get? x = lastOf x sets) ∧
    (setAll sets).names.Pairwise ByteLt ∧
    (∀ x v, (x, v) ∈ (setAll sets).bindings ↔ lastOf x sets = some v) ∧
    Json.read (setAll sets).json.compact = ⟨(setAll sets).draft, false⟩ ∧
    ∀ sets', (setAll sets).json.compact = (setAll sets').json.compact ↔
      ∀ x, lastOf x sets = lastOf x sets' := by
  refine ⟨fun x v => ?replace, get?_setAll sets, names_sorted _, fun x v => ?bindings,
    read_compact _, fun sets' => ?text⟩
  case replace => rw [replace_eq, get?_setAll, setAll_concat]
  case bindings => rw [mem_bindings_iff, get?_setAll]
  case text => simp only [compact_eq_iff, get?_setAll]

-- A name may be empty, and case, accents and quotes matter.
example : (setAll [("é", 1), ("z", 2), ("", 3), ("Z", 4), ("z", -5), ("\"", 6)]).json.compact
    = "\x7b\"\":3,\"\\\"\":6,\"Z\":4,\"z\":-5,\"é\":1\x7d" := by
  decide +kernel

end Env

end Imp
