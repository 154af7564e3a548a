import Imp.Proofs.Run.Limit

/-!
Runs that no step limit lets come to their end, and what they are on a machine that takes at least
one step for each of their actions.
-/

open Relation StateTransition

namespace Imp

namespace Config

variable {c c' : Config}

-- There is always a next action.
def Endless (c : Config) : Prop :=
  ¬(eval next? c).Dom

theorem Endless.next (h : c.Endless) (hn : c.next? = some c') : c'.Endless := by
  rwa [Endless, ← reaches_eval (.single hn : Reaches next? c c')]

theorem Endless.next?_ne_none (h : c.Endless) : c.next? ≠ none :=
  fun hn => h (Part.dom_iff_mem.mpr ⟨c, mem_eval.mpr ⟨.refl, hn⟩⟩)

-- From here on, every positive number of steps is used up.
def ExceedsAll (c : Config) : Prop :=
  ∀ left, ∃ limit step entries, Records limit (left + 1) step c entries (.outOfSteps limit)

theorem ExceedsAll.next (h : c.ExceedsAll) : ∃ c', c.next? = some c' ∧ c'.ExceedsAll := by
  have ⟨limit, step, entries, h₀⟩ := h 0
  cases h₀ with
  | @next _ _ env s todo a entries outcome action rest =>
    refine ⟨_, next?_cons action todo, fun left => ?_⟩
    have ⟨limit, step, entries, h'⟩ := h (left + 1)
    cases h' with
    | next action' rest =>
      cases action.symm.trans action'
      exact ⟨limit, _, _, rest⟩

theorem ExceedsAll.endless (h : c.ExceedsAll) : c.Endless := by
  intro hd
  have ⟨d, hd⟩ := Part.dom_iff_mem.mp hd
  refine evalInduction (C := fun c => c.ExceedsAll → False) hd (fun c _ ih h => ?_) h
  have ⟨c', hn, hc'⟩ := h.next
  exact ih c' hn hc'

-- A machine that follows a run, with at least one step for every action, does not halt if the run
-- does not end.
theorem Endless.simulation {σ : Type} {f : σ → Option σ} {R : Config → σ → Prop}
    (hs : ∀ {c c' t}, c.next? = some c' → R c t → ∃ t', R c' t' ∧ Reaches₁ f t t') {t : σ}
    (h : c.Endless) (ht : R c t) : ¬(eval f t).Dom := by
  have respects : Respects next? f fun c t => c.Endless ∧ R c t := by
    rintro c t ⟨hc, ht⟩
    cases hn : c.next? with
    | none => exact absurd hn hc.next?_ne_none
    | some c' =>
      have ⟨t', ht', hr⟩ := hs hn ht
      exact ⟨t', ⟨hc.next hn, ht'⟩, hr⟩
  rwa [tr_eval_dom respects ⟨h, ht⟩]

end Config

namespace Program

variable {p : Program}

theorem endless_of_outOfSteps
    (h : ∀ limit, 1 ≤ limit → (p.run limit).outcome = .outOfSteps limit) :
    Config.Endless ⟨.empty, p⟩ := by
  refine Config.ExceedsAll.endless fun left => ⟨left + 1, 1, (p.run (left + 1)).trace, ?_⟩
  exact h (left + 1) (Nat.le_add_left 1 left) ▸ p.run_records (left + 1)

theorem withinLimit_of_not_endless (h : ¬Config.Endless ⟨.empty, p⟩) :
    ∃ limit, 1 ≤ limit ∧ (p.run limit).outcome.WithinLimit := by
  by_contra hno
  refine h (endless_of_outOfSteps fun limit hl => ?_)
  have hr := p.run_records limit
  cases ho : (p.run limit).outcome with
  | finished | undeclared => exact absurd ⟨limit, hl, ho ▸ trivial⟩ hno
  | outOfSteps l =>
    rw [ho] at hr
    rw [hr.length_eq_of_outOfSteps.1]

end Program

end Imp
