import Imp.Proofs.Asm.Simulation
import Imp.Proofs.Asm.Steps

/-!
What the exit test of a loop decides.

A test with a right operand that is loaded at once leaves the loop if and only if its condition does
not hold. The code of any other right operand has put its own left operand into `B` by the time of
the comparison, and that is what the test compares.
-/

open StateTransition

namespace Imp

open Asm

namespace Asm

section Outside

variable {α : Type} [Word α] [DecidableEq α] {code c : Code} {s : State α} {l : Label} {pc : Nat}

-- Lines without labels are left by every jump.
theorem State.stepWithin?_eq_none_of_target (h : code.At pc c) (hc : c.numbers = [])
    (ht : code.target? l = some s.pc) : s.stepWithin? code pc c.length = none := by
  refine if_neg fun ⟨hlo, hhi⟩ => ?_
  have ⟨k, hk⟩ := Nat.exists_eq_add_of_le hlo
  have hline := Code.label_of_target? ht
  rw [hk, h.getElem? (by omega)] at hline
  have hmem : l.number ∈ c.numbers :=
    List.mem_filterMap.mpr ⟨_, List.mem_of_getElem? hline, rfl⟩
  rw [hc] at hmem
  nomatch hmem

end Outside

-- The cells, as integers with a sign.
def State.ints (s : State (BitVec 64)) (x : String) : Option Int :=
  (s.cells x).map BitVec.toInt

theorem State.cells_of_ints {s : State (BitVec 64)} {x : String} {i : Int}
    (h : s.ints x = some i) : s.cells x = some (Word.ofInt i) := by
  obtain ⟨v, hv, rfl⟩ := Option.map_eq_some_iff.mp h
  rw [hv]
  exact congrArg some (BitVec.ofInt_toInt).symm

end Asm

namespace Cond

-- Every value inside of the condition is there and in range.
def InRange (test : Cond) (s : State (BitVec 64)) : Prop :=
  ∀ e ∈ test.left.parts ++ test.right.parts, ∃ i, e.exact s.ints = some i ∧ Asm.InRange i

theorem compared_mem_parts (test : Cond) :
    test.compared ∈ test.left.parts ++ test.right.parts := by
  unfold compared
  cases test.right with
  | num | var => exact List.mem_append_left _ test.left.mem_parts_self
  | bin op l r =>
    refine List.mem_append_right _ (.tail _ ?_)
    exact List.mem_append_left _ l.mem_parts_self

variable {test : Cond} {code : Code} {s : State (BitVec 64)} {exit : Label} {target : Nat}

-- A pass through the code of an exit test ends behind it or at the target, depending on whether the
-- loop goes on. Memory and stack are as before.
def Passes (test : Cond) (code : Code) (s : State (BitVec 64)) (exit : Label) (target : Nat)
    (continues : Bool) : Prop :=
  ∃ t ∈ StateTransition.eval (State.stepWithin? code s.pc (test.asmExit exit).length) s,
    t.stack = s.stack ∧ t.cells = s.cells ∧
      t.pc = if continues then s.pc + (test.asmExit exit).length else target

theorem Passes.eq {q r : Bool} (hq : test.Passes code s exit target q)
    (hr : test.Passes code s exit target r) (hne : target ≠ s.pc + (test.asmExit exit).length) :
    q = r := by
  have ⟨t, ht, _, _, hpc⟩ := hq
  have ⟨t', ht', _, _, hpc'⟩ := hr
  rw [Part.mem_unique ht ht', hpc'] at hpc
  cases q <;> cases r <;> simp at hpc ⊢
  case false.true => exact hne hpc.symm
  case true.false => exact hne hpc

theorem asmExit_passes_compared (h : code.At s.pc (test.asmExit exit))
    (ht : code.target? exit = some target) (hv : test.InRange s) :
    ∃ l a b, test.left.exact s.ints = some l ∧ test.compared.exact s.ints = some a ∧
      test.right.exact s.ints = some b ∧ test.Passes code s exit target (test.rel.exact a b) := by
  obtain ⟨l, hl, hlr⟩ := hv test.left (List.mem_append_left _ test.left.mem_parts_self)
  obtain ⟨a, ha, har⟩ := hv test.compared test.compared_mem_parts
  obtain ⟨b, hb, hbr⟩ := hv test.right (List.mem_append_right _ test.right.mem_parts_self)
  have word {e : Expr} {i : Int} : e.exact s.ints = some i → e.word s.cells = some (Word.ofInt i) :=
    Expr.word_of_exact State.cells_of_ints
  obtain ⟨t, hreach, hstack, hcells, hpc⟩ := asmExit_passes h (word hl) (word ha) (word hb) ht
  rw [taken_inverse har hbr] at hpc
  refine ⟨l, a, b, hl, ha, hb, t, mem_eval.mpr ⟨hreach, ?_⟩, hstack, hcells, ?_⟩
  case refine_1 =>
    cases hr : test.rel.exact a b with
    | true => exact State.stepWithin?_eq_none (by simpa [hr] using hpc)
    | false =>
      have hpc : t.pc = target := by simpa [hr] using hpc
      exact State.stepWithin?_eq_none_of_target h (numbers_asmExit test exit) (hpc ▸ ht)
  case refine_2 => cases hr : test.rel.exact a b <;> simpa [hr] using hpc

-- The loop goes on if and only if the relation holds between what the test compares and its right
-- operand. This decides the condition of the loop if the right operand is loaded at once, and for
-- other ones just where the two comparisons happen to agree.
theorem asmExit_compares (h : code.At s.pc (test.asmExit exit))
    (ht : code.target? exit = some target) (hv : test.InRange s) :
    ∃ l a b, test.left.exact s.ints = some l ∧ test.compared.exact s.ints = some a ∧
      test.right.exact s.ints = some b ∧ test.Passes code s exit target (test.rel.exact a b) ∧
      (test.right.Simple → test.Passes code s exit target (test.rel.exact l b)) ∧
      (target ≠ s.pc + (test.asmExit exit).length →
        (test.Passes code s exit target (test.rel.exact l b) ↔
          test.rel.exact l b = test.rel.exact a b)) := by
  obtain ⟨l, a, b, hl, ha, hb, hpass⟩ := asmExit_passes_compared h ht hv
  refine ⟨l, a, b, hl, ha, hb, hpass, fun simple => ?_, fun hne => ⟨fun hl => ?_, fun heq => ?_⟩⟩
  case refine_1 =>
    rw [compared, simple.leftOperand?_eq] at ha
    cases hl.symm.trans ha
    exact hpass
  case refine_2 => exact hl.eq hpass hne
  case refine_3 => exact heq ▸ hpass

-- A condition with a sum on its right, and a machine that is about to test it with five for `x`.
def misled : Cond :=
  ⟨.lt, .var "x", .bin .add (.num 1) (.num 1)⟩

def misledCode : Code :=
  misled.asmExit (.loopEnd 2) ++ [.instr .halt, .label (.loopEnd 2)]

def misledState : State (BitVec 64) :=
  ⟨fun _ => 0, [], fun x => if x = "x" then some 5 else none, (0, 0), 0⟩

theorem misled_inRange : misled.InRange misledState := by
  simp only [InRange, misled, Expr.parts, List.mem_append, List.mem_cons, List.not_mem_nil, or_false]
  rintro e (rfl | rfl | rfl | rfl)
  case inl => exact ⟨5, by decide, by decide, by decide⟩
  case inr.inl => exact ⟨2, by decide, by decide, by decide⟩
  all_goals exact ⟨1, by decide, by decide, by decide⟩

theorem misled_at : misledCode.At misledState.pc (misled.asmExit (.loopEnd 2)) :=
  List.prefix_append ..

theorem misled_target : misledCode.target? (.loopEnd 2) = some 10 := by
  decide

-- Five is not below two, but the loop goes on: one is.
theorem misled_compares :
    misled.left.exact misledState.ints = some 5 ∧ misled.right.exact misledState.ints = some 2 ∧
      misled.Passes misledCode misledState (.loopEnd 2) 10 true := by
  have hleft : misled.left.exact misledState.ints = some 5 := by decide
  have hcompared : misled.compared.exact misledState.ints = some 1 := by decide
  have hright : misled.right.exact misledState.ints = some 2 := by decide
  obtain ⟨l, a, b, _, ha, hb, hpass, _⟩ := asmExit_compares misled_at misled_target misled_inRange
  cases hcompared.symm.trans ha
  cases hright.symm.trans hb
  exact ⟨hleft, hright, hpass⟩

theorem misled_undecided : ¬∀ (test : Cond) (code : Code) (s : State (BitVec 64)) (exit : Label)
    (target : Nat), code.At s.pc (test.asmExit exit) → code.target? exit = some target →
      test.InRange s → ∃ l b, test.left.exact s.ints = some l ∧ test.right.exact s.ints = some b ∧
        test.Passes code s exit target (test.rel.exact l b) := by
  intro h
  have hleft : misled.left.exact misledState.ints = some 5 := by decide
  have hcompared : misled.compared.exact misledState.ints = some 1 := by decide
  have hright : misled.right.exact misledState.ints = some 2 := by decide
  obtain ⟨_, a, b, _, ha, hb, hpass⟩ :=
    asmExit_passes_compared misled_at misled_target misled_inRange
  obtain ⟨l, b', hl, hb', hpass'⟩ := h _ _ _ _ _ misled_at misled_target misled_inRange
  cases hleft.symm.trans hl
  cases hcompared.symm.trans ha
  cases hright.symm.trans hb
  cases hright.symm.trans hb'
  exact absurd (hpass'.eq hpass (by decide)) (by decide)

end Cond

end Imp
