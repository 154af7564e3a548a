import Imp.Proofs.Run.Record
import Mathlib.Computability.Language

/-!
A trace is a path through the control flow of its program.

The control flow is a language over what is left of events without the values of variables. A step
of a run takes a letter off the words of what is left to run.
-/

open Computability

namespace Imp

-- An event without the values of variables.
inductive Event.Shape
  | declared (name expr : String)
  | assigned (name expr : String)
  | loopTest (condition : String) (result : Bool)
  | branchTest (condition : String) (result : Bool)
deriving DecidableEq, Repr

def Event.shape : Event → Shape
  | declared x _ _ text => .declared x text
  | assigned x _ _ text => .assigned x text
  | loopTest text r => .loopTest text r
  | branchTest text r => .branchTest text r

def Trace.shapes (t : Trace) : List Event.Shape :=
  t.map (·.event.shape)

mutual

def Stmt.flow : Stmt → Language Event.Shape
  | .declare x e => {[.declared x (e.text 0)]}
  | .assign x e => {[.assigned x (e.text 0)]}
  | .loop test b =>
    ({[.loopTest test.text true]} * Program.flow b)∗ * {[.loopTest test.text false]}
  | .branch test t none =>
    {[.branchTest test.text true]} * Program.flow t + {[.branchTest test.text false]}
  | .branch test t (some f) =>
    {[.branchTest test.text true]} * Program.flow t
      + {[.branchTest test.text false]} * Program.flow f

def Program.flow : Program → Language Event.Shape
  | [] => 1
  | s :: p => s.flow * Program.flow p

end

theorem Program.flow_append (p q : Program) : flow (p ++ q) = p.flow * q.flow := by
  induction p with
  | nil => simp [flow]
  | cons s p ih => simp [flow, ih, mul_assoc]

theorem cons_mem_mul {x : Event.Shape} {w : List Event.Shape} {l : Language Event.Shape}
    (h : w ∈ l) : x :: w ∈ {[x]} * l :=
  Language.append_mem_mul (Set.mem_singleton [x]) h

theorem Stmt.exit_mem_flow (test : Cond) (b : Program) :
    [.loopTest test.text false] ∈ (loop test b).flow :=
  Language.append_mem_mul (Language.nil_mem_kstar ({[.loopTest test.text true]} * b.flow))
    (Set.mem_singleton [Event.Shape.loopTest test.text false])

theorem Stmt.round_mem_flow {test : Cond} {b : Program} {u w : List Event.Shape} (hu : u ∈ b.flow)
    (hw : w ∈ (loop test b).flow) : .loopTest test.text true :: (u ++ w) ∈ (loop test b).flow := by
  -- One more round in front of the rounds of the star, and the way out behind them.
  have hrounds := mul_kstar_le_kstar (a := {[.loopTest test.text true]} * b.flow)
  obtain ⟨v, hv, x, hx, rfl⟩ := hw
  have hmore := hrounds (Language.append_mem_mul (cons_mem_mul hu) hv)
  simpa [flow] using Language.append_mem_mul hmore hx

theorem Program.exists_mem_flow (p : Program) : ∃ w, w ∈ p.flow := by
  induction p using Program.induction with
  | nil => exact ⟨[], Language.nil_mem_one⟩
  | declare x e k ih | assign x e k ih =>
    have ⟨w, hw⟩ := ih
    exact ⟨_, cons_mem_mul hw⟩
  | loop test b k _ ih =>
    have ⟨w, hw⟩ := ih
    exact ⟨_, Language.append_mem_mul (Stmt.exit_mem_flow test b) hw⟩
  | branch test t k _ ih =>
    have ⟨w, hw⟩ := ih
    exact ⟨_, Language.append_mem_mul (.inr rfl) hw⟩
  | branchElse test t f k _ hf ih =>
    have ⟨v, hv⟩ := hf
    have ⟨w, hw⟩ := ih
    exact ⟨_, Language.append_mem_mul (.inr (cons_mem_mul hv)) hw⟩

-- What an action records, in front of a word of its block, is a word of the statement.
theorem Stmt.Acts.cons_mem_flow {env : Env} {s : Stmt} {a : Action} {w : List Event.Shape}
    (h : s.Acts env a) (hw : w ∈ a.block.flow) : a.event.shape :: w ∈ s.flow := by
  cases h with
  | declare | assign => exact congrArg _ hw
  | @loop test b r =>
    cases r with
    | true =>
      obtain ⟨u, hu, v, hv, rfl⟩ : w ∈ b.flow * (Stmt.loop test b).flow := by
        simpa [Program.flow_append, Program.flow] using hw
      exact round_mem_flow hu hv
    | false =>
      obtain rfl : w = [] := hw
      exact exit_mem_flow test b
  | @branch test t f r =>
    cases f <;> cases r
    case none.false => exact .inr (congrArg _ hw)
    case none.true | some.true => exact .inl (cons_mem_mul hw)
    case some.false => exact .inr (cons_mem_mul hw)

namespace Config

variable {limit left step : Nat} {c : Config} {entries : Trace} {outcome : Outcome}

-- What is recorded begins a word of what is left to run, and is all of it at the end of the run.
theorem Records.exists_mem_flow (h : Records limit left step c entries outcome) :
    ∃ w ∈ c.todo.flow, entries.shapes <+: w ∧
      ∀ env, outcome = .finished env → entries.shapes = w := by
  induction h with
  | finished => exact ⟨[], Language.nil_mem_one, List.nil_prefix, fun _ _ => rfl⟩
  | @undeclared _ _ _ s todo _ | @outOfSteps _ _ s todo _ _ =>
    have ⟨w, hw⟩ := Program.exists_mem_flow (s :: todo)
    exact ⟨w, hw, List.nil_prefix, nofun⟩
  | @next _ _ _ s todo a entries _ action _ ih =>
    have ⟨w, hw, hprefix, hend⟩ := ih
    obtain ⟨u, hu, v, hv, rfl⟩ := Program.flow_append a.block todo ▸ hw
    have hstep : a.event.shape :: u ∈ s.flow := (Stmt.acts_of_act action).cons_mem_flow hu
    refine ⟨a.event.shape :: (u ++ v), Language.append_mem_mul hstep hv, ?_, ?_⟩
    case refine_1 => exact List.cons_prefix_cons.mpr ⟨rfl, hprefix⟩
    case refine_2 => exact fun env henv => congrArg _ (hend env henv)

end Config

namespace Program

-- A run that comes to its end takes a path through the control flow of the program, and what any
-- run shows its observer is the beginning of one.
theorem trace_mem_flow (limit : Nat) (p : Program) :
    (∀ env t, (p.run limit).result = .ok (env, t) → t.shapes ∈ p.flow) ∧
      ∃ w ∈ p.flow, (p.observed limit).shapes <+: w := by
  have ⟨w, hw, hprefix, hend⟩ := (p.run_records limit).exists_mem_flow
  refine ⟨fun env t ht => ?_, w, hw, observed_eq_trace limit p ▸ hprefix⟩
  have ⟨hfinished, htrace⟩ := Run.result_eq_ok.mp ht
  exact htrace ▸ hend env hfinished ▸ hw

-- Counts down from two, with one branch taken in each of the two rounds.
def descent : Program :=
  [.declare "n" (.num 2),
    .loop ⟨.gt, .var "n", .num 0⟩
      [.branch ⟨.gt, .var "n", .num 1⟩ [.assign "n" (.num 1)]
        (some [.assign "n" (.bin .sub (.var "n") (.num 1))])]]

theorem descent_mem_flow :
    [.declared "n" "2",
      .loopTest "n > 0" true, .branchTest "n > 1" true, .assigned "n" "1",
      .loopTest "n > 0" true, .branchTest "n > 1" false, .assigned "n" "n - 1",
      .loopTest "n > 0" false] ∈ descent.flow ∧
    (descent.run 3).outcome = .outOfSteps 3 ∧
      ∃ w ∈ descent.flow,
        [.declared "n" "2", .loopTest "n > 0" true, .branchTest "n > 1" true] <+: w := by
  have hresult : (descent.run 8).result = .ok (Env.empty.set "n" 0, (descent.run 8).trace) := by rfl
  exact ⟨(trace_mem_flow 8 descent).1 _ _ hresult, by decide, (trace_mem_flow 3 descent).2⟩

end Program

end Imp
