import Imp.Proofs.Env
import Imp.Proofs.Exact
import Imp.Proofs.Names
import Imp.Proofs.Parts
import Mathlib.Computability.StateTransition

/-!
Runs as sequences of configurations, and the simulation of a run by another machine.
-/

open Relation StateTransition

namespace Imp

-- The actions that statements can take.
inductive Stmt.Acts (env : Env) : Stmt → Action → Prop
  | declare {x : String} {e : Expr} {v : Int32} (value : e.eval env = .ok v) :
      Acts env (.declare x e) ⟨.declared x (env.get? x) v (e.text 0), env.set x v, []⟩
  | assign {x : String} {e : Expr} {before v : Int32} (bound : env.get? x = some before)
      (value : e.eval env = .ok v) :
      Acts env (.assign x e) ⟨.assigned x before v (e.text 0), env.set x v, []⟩
  | loop {test : Cond} {b : Program} {r : Bool} (value : test.eval env = .ok r) :
      Acts env (.loop test b) ⟨.loopTest test.text r, env, if r then b ++ [.loop test b] else []⟩
  | branch {test : Cond} {t : Program} {f : Option Program} {r : Bool}
      (value : test.eval env = .ok r) :
      Acts env (.branch test t f) ⟨.branchTest test.text r, env, if r then t else f.getD []⟩

theorem Stmt.acts_of_act {env : Env} {s : Stmt} {a : Action} (h : s.act env = .ok a) :
    s.Acts env a := by
  cases s with
  | declare x e =>
    simp only [act, bind_eq_ok, pure_eq_ok] at h
    obtain ⟨v, hv, rfl⟩ := h
    exact .declare hv
  | assign x e =>
    simp only [act] at h
    split at h
    case h_1 => simp at h
    case h_2 hb =>
      simp only [bind_eq_ok, pure_eq_ok] at h
      obtain ⟨v, hv, rfl⟩ := h
      exact .assign hb hv
  | loop test b =>
    simp only [act, bind_eq_ok, pure_eq_ok] at h
    obtain ⟨r, hr, rfl⟩ := h
    exact .loop hr
  | branch test t f =>
    simp only [act, bind_eq_ok, pure_eq_ok] at h
    obtain ⟨r, hr, rfl⟩ := h
    exact .branch hr

theorem Stmt.Acts.parts_block_subset {env : Env} {s : Stmt} {a : Action} (h : s.Acts env a) :
    a.block.parts ⊆ s.parts := by
  cases h with
  | declare | assign => simp [Program.parts]
  | @loop test b r hr => cases r <;> simp [Program.parts, Stmt.parts]
  | @branch test t f r hr => cases f <;> cases r <;> simp [Program.parts, Stmt.parts]

theorem Stmt.Acts.introduced_block_subset {env : Env} {s : Stmt} {a : Action} (h : s.Acts env a)
    (mode : Introduces) : Program.introduced mode a.block ⊆ s.introduced mode := by
  cases h with
  | declare | assign => simp [Program.introduced]
  | @loop test b r hr => cases r <;> simp [Program.introduced, Stmt.introduced]
  | @branch test t f r hr => cases f <;> cases r <;> simp [Program.introduced, Stmt.introduced]

-- An action binds no names but those of declarations and of what is bound already.
theorem Stmt.Acts.bound {env : Env} {s : Stmt} {a : Action} {x : String} {v : Int32}
    (h : s.Acts env a) (mode : Introduces) (hx : a.env.get? x = some v) :
    x ∈ s.introduced mode ∨ ∃ w, env.get? x = some w := by
  cases h with
  | @declare y =>
    by_cases hy : x = y
    case pos => simp [hy, introduced]
    case neg => exact .inr ⟨v, Env.get?_set_of_ne hy ▸ hx⟩
  | @assign y _ before _ bound =>
    by_cases hy : x = y
    case pos => exact .inr ⟨before, hy ▸ bound⟩
    case neg => exact .inr ⟨v, Env.get?_set_of_ne hy ▸ hx⟩
  | loop | branch => exact .inr ⟨v, hx⟩

-- The bindings, and what is left to run in them.
structure Config where
  env : Env
  todo : Program
deriving DecidableEq, Inhabited

namespace Config

-- The configuration after the next action, if something is left and its action succeeds.
def next? : Config → Option Config
  | ⟨_, []⟩ => none
  | ⟨env, s :: todo⟩ =>
    match s.act env with
    | .ok a => some ⟨a.env, a.block ++ todo⟩
    | .error _ => none

-- The configurations that at most so many actions go through, the first one included.
def path : Nat → Config → List Config
  | 0, c => [c]
  | n + 1, c => c :: c.next?.elim [] (path n)

-- The values, in integers without bounds, of everything inside of what the next action evaluates.
def values (c : Config) : List Int :=
  match c.todo with
  | [] => []
  | s :: _ => (s.exprs.flatMap Expr.parts).filterMap (Expr.exact c.env.ints)

theorem next?_cons {env : Env} {s : Stmt} {a : Action} (h : s.act env = .ok a) (todo : Program) :
    next? ⟨env, s :: todo⟩ = some ⟨a.env, a.block ++ todo⟩ := by
  simp [next?, h]

theorem exists_act_of_next? {c c' : Config} (h : c.next? = some c') :
    ∃ s todo a, c = ⟨c.env, s :: todo⟩ ∧ s.act c.env = .ok a ∧ c' = ⟨a.env, a.block ++ todo⟩ := by
  obtain ⟨env, _ | ⟨s, todo⟩⟩ := c
  case nil => simp [next?] at h
  case cons =>
    simp only [next?] at h
    split at h
    case h_1 a ha => exact ⟨s, todo, a, rfl, ha, (Option.some.inj h).symm⟩
    case h_2 => simp at h

theorem mem_path_succ {n : Nat} {c c' d : Config} (h : c.next? = some c') (hd : d ∈ path n c') :
    d ∈ path (n + 1) c := by
  simp [path, h, hd]

theorem mem_path_self (n : Nat) (c : Config) : c ∈ path n c := by
  cases n <;> simp [path]

theorem mem_values {env : Env} {s : Stmt} {todo : Program} {e : Expr} {i : Int} (he : e ∈ s.exprs)
    (hi : e.exact env.ints = some i) : i ∈ values ⟨env, s :: todo⟩ := by
  simp only [values, List.mem_filterMap, List.mem_flatMap]
  exact ⟨e, ⟨e, he, e.mem_parts_self⟩, hi⟩

theorem parts_subset_of_next? {c c' : Config} (h : c.next? = some c') :
    c'.todo.parts ⊆ c.todo.parts := by
  obtain ⟨s, todo, a, hc, ha, rfl⟩ := exists_act_of_next? h
  rw [hc, Program.parts_append]
  have hb := (Stmt.acts_of_act ha).parts_block_subset
  exact List.append_subset.mpr ⟨List.subset_append_of_subset_left _ hb, List.subset_append_right ..⟩

-- Everything that is bound, or that the rest introduces, is among the names.
structure Scoped (mode : Introduces) (names : List String) (c : Config) : Prop where
  todo : c.todo.introduced mode ⊆ names
  env : ∀ {x v}, c.env.get? x = some v → x ∈ names

theorem Scoped.next {mode : Introduces} {names : List String} {c c' : Config}
    (h : c.Scoped mode names) (hn : c.next? = some c') : c'.Scoped mode names := by
  obtain ⟨s, todo, a, hc, ha, rfl⟩ := exists_act_of_next? hn
  have ha := Stmt.acts_of_act ha
  have hb := ha.introduced_block_subset mode
  have hs := h.todo
  rw [hc, Program.introduced, List.append_subset] at hs
  refine ⟨?_, fun hx => ?_⟩
  case refine_1 =>
    rw [Program.introduced_append]
    exact List.append_subset.mpr ⟨List.Subset.trans hb hs.1, hs.2⟩
  case refine_2 =>
    cases ha.bound mode hx with
    | inl hx => exact hs.1 hx
    | inr hx => exact h.env hx.choose_spec

theorem simulation_of_chain {σ : Type} {f : σ → Option σ} {r : Config → Config → Prop}
    {R : Config → σ → Prop} (hs : ∀ {c c' t}, r c c' → R c t → ∃ t', R c' t' ∧ Reaches₁ f t t')
    {c c' : Config} {t : σ} (h : ReflTransGen r c c') (ht : R c t) :
    ∃ t', R c' t' ∧ Reaches f t t' := by
  induction h
  case refl => exact ⟨t, ht, .refl⟩
  case tail hc ih =>
    have ⟨u, hu, hr⟩ := ih
    have ⟨v, hv, hr'⟩ := hs hc hu
    exact ⟨v, hv, hr.trans hr'.to_reflTransGen⟩

end Config

open Config

theorem Run.reaches_of_finished {α : Type} {see : α → Entry → α} {limit left step : Nat}
    {memory : α} {seen : Trace} {env final : Env} {todo : Program}
    (h : (resume see limit left step memory seen env todo).2.outcome = .finished final) :
    ReflTransGen (fun c c' => c ∈ Config.path left ⟨env, todo⟩ ∧ c.next? = some c')
      ⟨env, todo⟩ ⟨final, []⟩ := by
  induction left generalizing step memory seen env todo <;> rcases todo with _ | ⟨s, todo⟩
  case zero.nil | succ.nil =>
    simp only [resume, Outcome.finished.injEq] at h
    exact h ▸ .refl
  case zero.cons => simp only [resume] at h; split at h <;> simp at h
  case succ.cons left ih =>
    simp only [resume] at h
    split at h
    case h_1 => simp at h
    case h_2 a ha =>
      have hn := next?_cons ha todo
      have hp : ∀ c c', c ∈ Config.path left ⟨a.env, a.block ++ todo⟩ ∧ c.next? = some c' →
          c ∈ Config.path (left + 1) ⟨env, s :: todo⟩ ∧ c.next? = some c' :=
        fun _ _ hc => ⟨mem_path_succ hn hc.1, hc.2⟩
      exact .head ⟨mem_path_self .., hn⟩ (ReflTransGen.mono hp _ _ (ih h))

namespace Program

-- The configurations that a run goes through.
def path (limit : Nat) (p : Program) : List Config :=
  Config.path limit ⟨.empty, p⟩

theorem start_scoped (mode : Introduces) (p : Program) :
    Config.Scoped mode (p.names mode) ⟨.empty, p⟩ where
  todo _ := mem_names.mpr
  env h := by simp at h

-- A relation between configurations and the states of a machine that every action keeps up, with at
-- least one step of the machine, holds at the end of a run.
theorem simulation {σ : Type} {f : σ → Option σ} {R : Config → σ → Prop} {p : Program}
    {limit : Nat} {final : Env} {t : σ} (h : (p.run limit).outcome = .finished final)
    (hs : ∀ {c c' t}, c ∈ p.path limit → c.next? = some c' → R c t →
      ∃ t', R c' t' ∧ Reaches₁ f t t')
    (ht : R ⟨.empty, p⟩ t) : ∃ t', R ⟨final, []⟩ t' ∧ Reaches f t t' :=
  simulation_of_chain (R := R) (fun hc => hs hc.1 hc.2) (Run.reaches_of_finished h) ht

end Program

end Imp
