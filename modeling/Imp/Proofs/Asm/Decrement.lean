import Imp.Proofs.Asm.Operands

/-!
A pass through the code of a saturating decrement ends behind it, with the cell one less, or with
the cell as it was if that was zero.
-/

open Relation StateTransition

namespace Imp

namespace Asm

variable {α : Type} [Word α] [DecidableEq α] {code : Code} {s t : State α} {x : String} {v : α}
  {number : Nat}

-- Code of a length has been run up to its end, with a value stored as its effect.
structure State.Stored (s t : State α) (length : Nat) (x : String) (v : α) : Prop where
  pc : t.pc = s.pc + length
  stack : t.stack = s.stack
  cells : t.cells = fun y => if y = x then some v else s.cells y

section Decrement

variable (h : code.At s.pc (decrement x number)) (hx : s.cells x = some v)
include h hx

-- The state at the jump, which finds the value compared with zero.
theorem decrement_compares :
    Reaches (State.stepWithin? code s.pc (decrement x number).length) s
      { s.put .a v with flags := (v, Word.ofInt 0), pc := s.pc + 3 } := by
  let s₁ := s.next
  have h₁ : s.stepWithin? code s.pc (decrement x number).length = some s₁ := by
    rw [State.stepWithin?_eq (Nat.add_zero _).symm (by simp [decrement])]
    simp [State.step?, h.head, s₁]
  let s₂ := s₁.next.put .a v
  have h₂ : s₁.stepWithin? code s.pc (decrement x number).length = some s₂ := by
    rw [State.stepWithin?_eq (k := 1) rfl (by simp [decrement]), State.step?_of_at h.tail]
    simp [State.exec?, State.read?, s₂, s₁, State.next, hx]
  have h₃ : s₂.stepWithin? code s.pc (decrement x number).length
      = some { s.put .a v with flags := (v, Word.ofInt 0), pc := s.pc + 3 } := by
    rw [State.stepWithin?_eq (k := 2) rfl (by simp [decrement]), State.step?_of_at h.tail.tail]
    rfl
  exact .head h₁ (.head h₂ (.single h₃))

theorem decrement_passes (hv : v ≠ Word.ofInt 0) :
    ∃ t ∈ eval (State.stepWithin? code s.pc (decrement x number).length) s,
      s.Stored t (decrement x number).length x (Word.apply .sub v (Word.ofInt 1)) := by
  let s₃ : State α := { s.put .a v with flags := (v, Word.ofInt 0), pc := s.pc + 3 }
  have h₄ : s₃.stepWithin? code s.pc (decrement x number).length = some s₃.next := by
    rw [State.stepWithin?_eq (k := 3) rfl (by simp [decrement]), State.step?_of_at h.tail.tail.tail]
    simp [State.exec?, Jump.taken, s₃, State.next, hv]
  let s₅ := s₃.next.next.put .a (Word.apply .sub v (Word.ofInt 1))
  have h₅ : s₃.next.stepWithin? code s.pc (decrement x number).length = some s₅ := by
    rw [State.stepWithin?_eq (k := 4) rfl (by simp [decrement]),
      State.step?_of_at h.tail.tail.tail.tail]
    rfl
  let s₆ : State α := { s₅.next with
    cells := fun y => if y = x then some (Word.apply .sub v (Word.ofInt 1)) else s.cells y }
  have h₆ : s₅.stepWithin? code s.pc (decrement x number).length = some s₆ := by
    rw [State.stepWithin?_eq (k := 5) rfl (by simp [decrement]),
      State.step?_of_at h.tail.tail.tail.tail.tail]
    have : s₅.cells x = some v := hx
    simp only [State.exec?, State.next, this]
    rfl
  have h₇ : s₆.stepWithin? code s.pc (decrement x number).length = some s₆.next := by
    rw [State.stepWithin?_eq (k := 6) rfl (by simp [decrement])]
    simp [State.step?, (show code[s₆.pc]? = _ from h.tail.tail.tail.tail.tail.tail.head)]
  have hreach := (decrement_compares h hx).trans (.head h₄ (.head h₅ (.head h₆ (.single h₇))))
  exact ⟨s₆.next, mem_eval.mpr ⟨hreach, State.stepWithin?_eq_none rfl⟩, rfl, rfl, rfl⟩

theorem decrement_passes_zero (hn : code.numbers.Nodup) (hv : v = Word.ofInt 0) :
    ∃ t ∈ eval (State.stepWithin? code s.pc (decrement x number).length) s,
      s.Stored t (decrement x number).length x v := by
  have hlabel := h.tail.tail.tail.tail.tail.tail.head
  let s₃ : State α := { s.put .a v with flags := (v, Word.ofInt 0), pc := s.pc + 3 }
  let s₄ : State α := { s₃ with pc := s.pc + 6 }
  have h₄ : s₃.stepWithin? code s.pc (decrement x number).length = some s₄ := by
    rw [State.stepWithin?_eq (k := 3) rfl (by simp [decrement]), State.step?_of_at h.tail.tail.tail]
    simp [State.exec?, Jump.taken, s₃, s₄, State.next, hv, Code.target?_eq hn hlabel]
  have h₅ : s₄.stepWithin? code s.pc (decrement x number).length = some s₄.next := by
    rw [State.stepWithin?_eq (k := 6) rfl (by simp [decrement])]
    simp [State.step?, (show code[s₄.pc]? = _ from hlabel)]
  have hreach := (decrement_compares h hx).trans (.head h₄ (.single h₅))
  refine ⟨s₄.next, mem_eval.mpr ⟨hreach, State.stepWithin?_eq_none rfl⟩, rfl, rfl, ?_⟩
  funext y
  by_cases hy : y = x
  case pos => simp [hy, s₄, s₃, State.next, State.put, hx]
  case neg => simp [hy, s₄, s₃, State.next, State.put]

theorem decrement_reaches (hv : v ≠ Word.ofInt 0) :
    ∃ t, Reaches₁ (State.step? code) s t ∧
      s.Stored t (decrement x number).length x (Word.apply .sub v (Word.ofInt 1)) := by
  have ⟨t, ht, hs⟩ := decrement_passes h hx hv
  refine ⟨t, ?_, hs⟩
  have hne : t ≠ s := fun heq => by
    have := hs.pc
    rw [heq, decrement] at this
    simp at this
  cases reflTransGen_iff_eq_or_transGen.mp (mem_eval.mp ht).1 with
  | inl heq => exact absurd heq hne
  | inr hreach => exact TransGen.mono (fun _ _ => State.step?_of_stepWithin?) _ _ hreach

end Decrement

end Asm

end Imp
