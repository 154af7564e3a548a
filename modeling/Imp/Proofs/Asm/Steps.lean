import Imp.Proofs.Asm.Layout

/-!
What a step of the machine does to the place in the code, to the stack and to the cells that are
there.
-/

open StateTransition

namespace Imp

namespace Asm

variable {α : Type} [Word α] [DecidableEq α] {code : Code} {s t : State α} {l : Label} {pc : Nat}

theorem Code.label_of_target? (h : code.target? l = some pc) : code[pc]? = some (.label l) := by
  have ⟨hlt, hl, _⟩ := List.findIdx?_eq_some_iff_getElem.mp h
  rw [List.getElem?_eq_getElem hlt, of_decide_eq_true hl]

theorem State.step?_cases (h : s.step? code = some t) :
    (∃ l, code[s.pc]? = some l ∧ (∀ i, l ≠ .instr i) ∧ t = s.next) ∨
    ∃ i, code[s.pc]? = some (.instr i) ∧ s.next.exec? code i = some t := by
  unfold step? at h
  split at h
  case h_1 i hi => exact .inr ⟨i, hi, h⟩
  case h_2 l hne hl => exact .inl ⟨l, hl, fun i hi => hne i hi, (Option.some.inj h).symm⟩
  case h_3 => nomatch h

theorem State.exec?_pop {r : Register} (h : s.exec? code (.pop r) = some t) :
    ∃ v stack, s.stack = v :: stack ∧ t = { s with stack := stack }.put r v := by
  simp only [exec?] at h
  split at h
  case h_1 v stack hstack => exact ⟨v, stack, hstack, (Option.some.inj h).symm⟩
  case h_2 => nomatch h

theorem State.exec?_jump {j : Jump} (h : s.exec? code (.jump j l) = some t) :
    j.taken s.flags = false ∧ t = s ∨ ∃ pc, code.target? l = some pc ∧ t = { s with pc := pc } := by
  simp only [exec?] at h
  split at h
  case isTrue =>
    obtain ⟨pc, hpc, rfl⟩ := Option.map_eq_some_iff.mp h
    exact .inr ⟨pc, hpc, rfl⟩
  case isFalse htaken => exact .inl ⟨Bool.eq_false_iff.mpr htaken, (Option.some.inj h).symm⟩

theorem State.pc_of_exec? {i : Instr} (h : s.exec? code i = some t) :
    t.pc = s.pc ∨ ∃ j l, i = .jump j l ∧ code.target? l = some t.pc := by
  cases i with
  | load | store | cmp =>
    obtain ⟨v, hv, rfl⟩ := Option.map_eq_some_iff.mp h
    exact .inl rfl
  | push | add | sub | mul | dec =>
    cases h
    exact .inl rfl
  | pop r =>
    obtain ⟨v, stack, hstack, rfl⟩ := exec?_pop h
    exact .inl rfl
  | jump j l =>
    obtain ⟨_, rfl⟩ | ⟨pc, hpc, rfl⟩ := exec?_jump h
    case inl => exact .inl rfl
    case inr => exact .inr ⟨j, l, rfl, hpc⟩
  | halt => nomatch h

-- A step leads to the next line, or by a jump to that of its label.
theorem State.pc_of_step? (h : s.step? code = some t) : t.pc = s.pc + 1 ∨
    ∃ j l, code[s.pc]? = some (.instr (.jump j l)) ∧ code.target? l = some t.pc := by
  obtain ⟨l, hl, _, rfl⟩ | ⟨i, hi, h⟩ := step?_cases h
  case inl => exact .inl rfl
  case inr =>
    obtain hpc | ⟨j, l, rfl, htarget⟩ := pc_of_exec? h
    case inl => exact .inl hpc
    case inr => exact .inr ⟨j, l, hi, htarget⟩

theorem State.pc_of_step?_instr {i : Instr} (h : s.step? code = some t)
    (hi : code[t.pc]? = some (.instr i)) : t.pc = s.pc + 1 := by
  obtain hpc | ⟨j, l, hj, htarget⟩ := pc_of_step? h
  case inl => exact hpc
  case inr =>
    rw [Code.label_of_target? htarget] at hi
    nomatch hi

theorem State.isSome_cells_of_exec? {i : Instr} (h : s.exec? code i = some t) (x : String) :
    (t.cells x).isSome = (s.cells x).isSome := by
  cases i with
  | load | cmp =>
    obtain ⟨v, hv, rfl⟩ := Option.map_eq_some_iff.mp h
    rfl
  | store y r =>
    obtain ⟨v, hv, rfl⟩ := Option.map_eq_some_iff.mp h
    by_cases hx : x = y
    case pos => simp [hx, hv]
    case neg => simp [hx]
  | push | add | sub | mul | dec =>
    cases h
    rfl
  | pop r =>
    obtain ⟨v, stack, hstack, rfl⟩ := exec?_pop h
    rfl
  | jump j l => obtain ⟨_, rfl⟩ | ⟨pc, hpc, rfl⟩ := exec?_jump h <;> rfl
  | halt => nomatch h

theorem State.isSome_cells_of_step? (h : s.step? code = some t) (x : String) :
    (t.cells x).isSome = (s.cells x).isSome := by
  obtain ⟨l, hl, _, rfl⟩ | ⟨i, hi, h⟩ := step?_cases h
  case inl => rfl
  case inr => exact isSome_cells_of_exec? h x

-- What every step preserves holds wherever the machine comes to.
theorem State.invariant {P : State α → Prop} (step : ∀ {s t}, P s → s.step? code = some t → P t)
    (hs : P s) (h : Reaches (step? code) s t) : P t := by
  induction h with
  | refl => exact hs
  | tail _ hstep ih => exact step ih hstep

end Asm

end Imp
