import Imp.Proofs.Run.Endless
import Imp.Proofs.Wat.Simulation

/-!
The WebAssembly code of a program that does not come to its end does not come to an end either.
-/

open Relation StateTransition

namespace Imp

open Wat

namespace Program

variable {o : Options} {p : Program} {m : Module}

theorem runs_entry (h : p.watModule o = .ok m) :
    p.Runs (m.result.map .get).toList ⟨.empty, p⟩ m.entry := by
  have ⟨⟨n, hc⟩, hl, _⟩ := watModule_eq_ok h
  refine ⟨p.start_scoped _, ?_, rfl, ?_⟩
  case refine_1 => funext x; simp [Module.entry, Locals.of, hl]
  case refine_2 => simpa [Module.entry, Module.body] using Pending.block hc .last

theorem not_dom_of_endless (h : p.watModule o = .ok m) (he : Config.Endless ⟨.empty, p⟩) :
    ¬(eval State.step? m.entry).Dom :=
  he.simulation (fun hn hr => hr.next hn) (runs_entry h)

-- The code of a program that exceeds every limit goes on for ever. So if it returns, the program
-- comes to an end under some limit, perhaps at a name that is not declared. It is the code of the
-- function that the text reads as.
theorem wat_diverges {text : String} (ht : p.watText o = .ok text) :
    ∃ m, p.watModule o = .ok m ∧ text = m.text o.indent ∧
      (o.Legible → (∀ x ∈ p.names .declarations, IsPlain x) → read? text = some m.toFunction) ∧
      ((∀ limit, 1 ≤ limit → (p.run limit).outcome = .outOfSteps limit) →
        ∀ s, Reaches State.step? m.entry s → ∃ t, s.step? = some t) ∧
      ∀ stack locals, m.Returns stack locals →
        ∃ limit, 1 ≤ limit ∧ (p.run limit).outcome.WithinLimit := by
  simp only [watText, bind_eq_ok, pure_eq_ok] at ht
  obtain ⟨m, hm, rfl⟩ := ht
  refine ⟨m, hm, rfl, read?_of_watModule hm, fun h s hs => ?_, fun stack locals hreturns => ?_⟩
  case refine_1 =>
    have hd := not_dom_of_endless hm (endless_of_outOfSteps h)
    refine Option.ne_none_iff_exists'.mp fun hn => hd ?_
    exact Part.dom_iff_mem.mpr ⟨s, mem_eval.mpr ⟨hs, hn⟩⟩
  case refine_2 =>
    refine withinLimit_of_not_endless fun he => not_dom_of_endless hm he ?_
    exact Part.dom_iff_mem.mpr ⟨_, mem_eval.mpr ⟨hreturns, rfl⟩⟩

-- A loop that does nothing but test its condition, inside of another loop.
def spinning : Program :=
  [.declare "x" (.num 0), .loop ⟨.eq, .var "x", .num 0⟩ [.loop ⟨.le, .var "x", .num 0⟩ []]]

-- The inner loop tests its condition as often as there are steps left.
theorem spinning_inner {limit left step : Nat} {seen : Trace} {todo : Program} :
    (Run.resume (fun _ _ => ()) limit left step () seen (Env.empty.set "x" 0)
      (.loop ⟨.le, .var "x", .num 0⟩ [] :: todo)).2.outcome = .outOfSteps limit := by
  induction left generalizing step seen with
  | zero => rfl
  | succ left ih => exact ih

theorem spinning_outOfSteps : ∀ limit, (spinning.run limit).outcome = .outOfSteps limit
  | 0 | 1 => rfl
  | _ + 2 => spinning_inner

theorem spinning_diverges :
    ∃ text, ∃ m : Module, spinning.watText {} = .ok text ∧ read? text = some m.toFunction ∧
      ∀ s, Reaches State.step? m.entry s → ∃ t, s.step? = some t := by
  have ⟨text, ht⟩ : ∃ text, spinning.watText {} = .ok text := ⟨_, rfl⟩
  have ⟨m, _, _, hread, hgoes, _⟩ := wat_diverges ht
  have hread := hread ⟨by simp, by decide, by simp +decide⟩ (by simp +decide)
  exact ⟨text, m, ht, hread, hgoes fun limit _ => spinning_outOfSteps limit⟩

end Program

end Imp
