import Imp.Proofs.Env
import Imp.Proofs.Exact
import Imp.Proofs.Wat.Refusal

/-!
The value of an expression. Its names are looked up from left to right, and the first one that is
not bound is what evaluation fails with. Where all of them are bound, the value has wrapped around
at every operator, which makes it the exact value, wrapped around once.
-/

namespace Imp

namespace Expr

-- Evaluation resolves names in the order in which the translation to WebAssembly does.
theorem eval_resolves (env : Env) (e : Expr) : Wat.Resolves env.names e.names (e.eval env) := by
  induction e with
  | num v => exact .ok _ v
  | var x =>
    cases hx : env.get? x with
    | none => simp [Wat.Resolves, names, eval, hx, Env.mem_names_iff]
    | some v => simp [Wat.Resolves, names, eval, hx, Env.mem_names_iff]
  | bin op l r ihl ihr => exact ihl.bind fun _ => ihr.map

end Expr

theorem Cond.eval_resolves (env : Env) (c : Cond) :
    Wat.Resolves env.names (c.left.names ++ c.right.names) (c.eval env) :=
  (c.left.eval_resolves env).bind fun _ => (c.right.eval_resolves env).map

-- An action fails with the first name that its statement uses without it being bound.
theorem Stmt.act_resolves (env : Env) (s : Stmt) : Wat.Resolves env.names s.uses (s.act env) := by
  cases s <;> rw [act]
  case declare x e => simpa [uses, reads, exprs] using (e.eval_resolves env).map
  case assign x e =>
    cases hx : env.get? x with
    | none => simp [Wat.Resolves, uses, hx, Env.mem_names_iff]
    | some before =>
      have hmem : x ∈ env.names := Env.mem_names_iff.mpr ⟨before, hx⟩
      simpa [Wat.Resolves, uses, hmem] using (e.eval_resolves env).map
  case loop c b | branch c t f => simpa [uses, reads, exprs] using (c.eval_resolves env).map

namespace Expr

-- An expression whose names are bound has a value, which is the exact one reduced to the signed
-- range of 32 bits. Any other expression fails with its first name that is not bound.
theorem eval_wraps (env : Env) (e : Expr) :
    ((∀ x ∈ e.names, x ∈ env.names) →
      ∃ i v, e.exact env.ints = some i ∧ e.eval env = .ok v ∧ v.toInt = i.bmod 4294967296) ∧
    ∀ x, e.eval env = .error ⟨x⟩ ↔ FirstFailure (· ∈ env.names) e.names x := by
  have hr := eval_resolves env e
  refine ⟨fun hbound => ?_, fun x => hr.eq_error_iff⟩
  have ⟨v, hv⟩ := hr.isOk_iff.mpr hbound
  obtain ⟨i, hi, rfl⟩ := exact_of_eval hv
  exact ⟨i, _, hi, hv, Int32.toInt_ofInt⟩

-- The cube of a name, less another one.
def cube : Expr :=
  .bin .sub (.bin .mul (.var "a") (.bin .mul (.var "a") (.var "a"))) (.var "b")

theorem cube_wraps :
    (∃ v, cube.eval ((Env.empty.set "a" 2147483647).set "b" 2) = .ok v ∧
      v.toInt = (9903520300447984150353281021 : Int).bmod 4294967296 ∧ v = 2147483645) ∧
    cube.eval (Env.empty.set "c" 1) = .error ⟨"a"⟩ := by
  have hbound : ∀ x ∈ cube.names, x ∈ ((Env.empty.set "a" 2147483647).set "b" 2).names := by decide
  have ⟨i, v, hi, hv, hwrap⟩ := (eval_wraps _ cube).1 hbound
  have hexact : cube.exact ((Env.empty.set "a" 2147483647).set "b" 2).ints =
      some 9903520300447984150353281021 := by decide
  have hi : 9903520300447984150353281021 = i := Option.some.inj (hexact.symm.trans hi)
  have hfirst : FirstFailure (· ∈ (Env.empty.set "c" 1).names) cube.names "a" :=
    ⟨[], ["a", "a", "b"], rfl, nofun, by decide⟩
  refine ⟨⟨v, hv, hi ▸ hwrap, ?_⟩, ((eval_wraps _ cube).2 "a").mpr hfirst⟩
  rw [← Int32.toInt_inj, hwrap, ← hi]
  decide

end Expr

end Imp
