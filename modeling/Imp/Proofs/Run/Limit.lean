import Imp.Proofs.Run.Record

/-!
The step limit cuts a run short, and changes nothing else about it.
-/

namespace Imp

-- The run has ended before its limit.
def Outcome.WithinLimit : Outcome → Prop
  | finished _ | undeclared _ => True
  | outOfSteps _ => False

namespace Config.Records

variable {m n left left' step : Nat} {c : Config} {entries : Trace} {outcome : Outcome}

-- The same configuration with fewer steps left. Where the entries fit, so does the outcome.
theorem of_le (h : Records n left' step c entries outcome) (hle : left ≤ left') (m : Nat) :
    Records m left step c (entries.take left) (.outOfSteps m) ∧
        (outcome.WithinLimit → left < entries.length) ∨
      outcome.WithinLimit ∧ entries.length ≤ left ∧ Records m left step c entries outcome := by
  induction h generalizing left with
  | finished => exact .inr ⟨trivial, Nat.zero_le _, .finished⟩
  | undeclared failure => exact .inr ⟨trivial, Nat.zero_le _, .undeclared failure⟩
  | outOfSteps action =>
    obtain rfl := Nat.le_zero.mp hle
    exact .inl ⟨.outOfSteps action, False.elim⟩
  | next action rest ih =>
    cases left with
    | zero => exact .inl ⟨.outOfSteps action, fun _ => Nat.zero_lt_succ _⟩
    | succ left =>
      cases ih (Nat.le_of_succ_le_succ hle) with
      | inl h => exact .inl ⟨.next action h.1, fun hw => Nat.succ_lt_succ (h.2 hw)⟩
      | inr h => exact .inr ⟨h.1, Nat.succ_le_succ h.2.1, .next action h.2.2⟩

theorem length_le (h : Records n left step c entries outcome) : entries.length ≤ left := by
  induction h with
  | finished | undeclared | outOfSteps => exact Nat.zero_le _
  | next action rest ih => exact Nat.succ_le_succ ih

theorem length_eq_of_outOfSteps {l : Nat} (h : Records n left step c entries (.outOfSteps l)) :
    l = n ∧ entries.length = left := by
  generalize ho : Outcome.outOfSteps l = outcome at h
  induction h with
  | finished | undeclared => cases ho
  | outOfSteps => exact ⟨Outcome.outOfSteps.inj ho, rfl⟩
  | next action rest ih =>
    have ⟨hl, hlength⟩ := ih ho
    exact ⟨hl, congrArg (· + 1) hlength⟩

end Config.Records

namespace Program

-- Under the lower one of two limits a run is what it is under the higher one, up to its limit.
theorem run_of_le {m n : Nat} (h : m ≤ n) (p : Program) :
    p.observed m <+: p.observed n ∧
      ((p.run n).outcome.WithinLimit →
        ((p.observed n).length ≤ m → p.run m = p.run n) ∧
          (m < (p.observed n).length →
            (p.run m).outcome = .outOfSteps m ∧ (p.observed m).length = m)) ∧
      ∀ l, (p.run n).outcome = .outOfSteps l → l = n ∧ (p.observed n).length = n := by
  have hn := p.run_records n
  simp only [observed_eq_trace]
  refine ⟨?_, fun hw => ?_, fun l hl => (hl ▸ hn).length_eq_of_outOfSteps⟩
  case refine_1 =>
    cases hn.of_le h m with
    | inl hm => rw [run_of_records hm.1]; exact List.take_prefix ..
    | inr hm => rw [run_of_records hm.2.2]
  case refine_2 =>
    cases hn.of_le h m with
    | inl hm =>
      have hlt := hm.2 hw
      have hlength : ((p.run n).trace.take m).length = m := by simp; omega
      rw [run_of_records hm.1]
      exact ⟨fun hle => by omega, fun _ => ⟨rfl, hlength⟩⟩
    | inr hm => exact ⟨fun _ => run_of_records hm.2.2, fun hlt => by omega⟩

-- Counts to three and reads a name that is not declared, which takes eight steps.
def astray : Program :=
  [.declare "x" (.num 0),
    .loop ⟨.lt, .var "x", .num 3⟩ [.assign "x" (.bin .add (.var "x") (.num 1))],
    .assign "x" (.var "y")]

theorem astray_of_le :
    (astray.run 8).outcome = .undeclared ⟨"y"⟩ ∧ astray.run 8 = astray.run 20 ∧
      (astray.run 7).outcome = .outOfSteps 7 ∧ astray.observed 7 <+: astray.observed 20 := by
  have hw : (astray.run 20).outcome = .undeclared ⟨"y"⟩ := by decide
  have hlength : (astray.observed 20).length = 8 := by decide
  have hwithin : (astray.run 20).outcome.WithinLimit := hw ▸ trivial
  have ⟨_, h₈, _⟩ := run_of_le (m := 8) (n := 20) (by decide) astray
  have ⟨hstart, h₇, _⟩ := run_of_le (m := 7) (n := 20) (by decide) astray
  have heq := (h₈ hwithin).1 (by rw [hlength])
  exact ⟨heq ▸ hw, heq, ((h₇ hwithin).2 (by rw [hlength]; decide)).1, hstart⟩

end Program

end Imp
