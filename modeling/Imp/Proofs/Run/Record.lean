import Imp.Error
import Imp.Proofs.Config

/-!
What a run records, and how it ends.

`Config.Records` tells it entry by entry, from any configuration on. Every configuration records
something, and what it records is what the run returns and what an observer is shown.
-/

namespace Imp

-- With so many steps left, and the number of the next one: the entries from a configuration on, and
-- the outcome.
inductive Config.Records (limit : Nat) : Nat → Nat → Config → Trace → Outcome → Prop
  | finished {left step : Nat} {env : Env} :
      Records limit left step ⟨env, []⟩ [] (.finished env)
  | undeclared {left step : Nat} {env : Env} {s : Stmt} {todo : Program} {u : Undeclared}
      (failure : s.act env = .error u) :
      Records limit left step ⟨env, s :: todo⟩ [] (.undeclared u)
  | outOfSteps {step : Nat} {env : Env} {s : Stmt} {todo : Program} {a : Action}
      (action : s.act env = .ok a) :
      Records limit 0 step ⟨env, s :: todo⟩ [] (.outOfSteps limit)
  | next {left step : Nat} {env : Env} {s : Stmt} {todo : Program} {a : Action} {entries : Trace}
      {outcome : Outcome} (action : s.act env = .ok a)
      (rest : Records limit left (step + 1) ⟨a.env, a.block ++ todo⟩ entries outcome) :
      Records limit (left + 1) step ⟨env, s :: todo⟩ (⟨step, a.event, a.env⟩ :: entries) outcome

namespace Config

variable {limit left step : Nat} {c : Config} {entries : Trace} {outcome : Outcome}

theorem exists_records (limit left step : Nat) (c : Config) :
    ∃ entries outcome, Records limit left step c entries outcome := by
  induction left generalizing step c <;> obtain ⟨env, _ | ⟨s, todo⟩⟩ := c
  case zero.nil | succ.nil => exact ⟨[], _, .finished⟩
  case zero.cons =>
    cases ha : s.act env with
    | error u => exact ⟨[], _, .undeclared ha⟩
    | ok a => exact ⟨[], _, .outOfSteps ha⟩
  case succ.cons ih =>
    cases ha : s.act env with
    | error u => exact ⟨[], _, .undeclared ha⟩
    | ok a =>
      have ⟨entries, outcome, h⟩ := ih (step + 1) ⟨a.env, a.block ++ todo⟩
      exact ⟨_, outcome, .next ha h⟩

theorem Records.resume_eq {α : Type} (h : Records limit left step c entries outcome)
    (see : α → Entry → α) (memory : α) (seen : Trace) :
    Run.resume see limit left step memory seen c.env c.todo =
      (entries.foldl see memory, ⟨seen.reverse ++ entries, outcome⟩) := by
  induction h generalizing memory seen with
  | finished => simp [Run.resume]
  | undeclared failure => simp [Run.resume, failure]
  | outOfSteps action => simp [Run.resume, action]
  | next action rest ih => simp [Run.resume, action, ih]

end Config

-- A run hands something back if it comes to its end.
theorem Run.result_eq_ok {r : Run} {env : Env} {t : Trace} :
    r.result = .ok (env, t) ↔ r.outcome = .finished env ∧ r.trace = t := by
  cases h : r.outcome <;> simp [result, Outcome.result, h]

namespace Program

open Config

variable {α : Type} {limit : Nat} {p : Program} {entries : Trace} {outcome : Outcome}

theorem runObserved_of_records (h : Records limit limit 1 ⟨.empty, p⟩ entries outcome)
    (see : α → Entry → α) (memory : α) :
    p.runObserved see memory limit = (entries.foldl see memory, ⟨entries, outcome⟩) :=
  h.resume_eq see memory []

theorem run_of_records (h : Records limit limit 1 ⟨.empty, p⟩ entries outcome) :
    p.run limit = ⟨entries, outcome⟩ :=
  congrArg Prod.snd (runObserved_of_records h _ ())

theorem run_records (limit : Nat) (p : Program) :
    Records limit limit 1 ⟨.empty, p⟩ (p.run limit).trace (p.run limit).outcome := by
  have ⟨entries, outcome, h⟩ := exists_records limit limit 1 ⟨.empty, p⟩
  rw [run_of_records h]
  exact h

-- An observer is shown the entries of the trace, in their order, and changes nothing.
theorem runObserved_eq (see : α → Entry → α) (memory : α) (limit : Nat) (p : Program) :
    p.runObserved see memory limit = ((p.run limit).trace.foldl see memory, p.run limit) :=
  runObserved_of_records (run_records limit p) see memory

theorem observed_eq_trace (limit : Nat) (p : Program) : p.observed limit = (p.run limit).trace := by
  have hfold : ∀ entries seen : Trace,
      entries.foldl (fun seen e => seen ++ [e]) seen = seen ++ entries := by
    intro entries
    induction entries with
    | nil => simp
    | cons e entries ih => simp [ih]
  simp [observed, runObserved_eq, hfold]

end Program

end Imp
