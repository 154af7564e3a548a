import Imp.Proofs.Asm.Simulation
import Imp.Proofs.Names

/-!
The code of an expression on machines of every word size. From any state in which the names of the
expression have cells, it runs to its end and leaves the value of the expression in the accumulator,
reduced to the size of the words.
-/

open StateTransition

namespace Imp

open Asm

namespace Asm

variable {w : Nat} {s : State (BitVec w)} {x : String} {i : Int}

-- The cells, as integers without a sign.
def State.naturals (s : State (BitVec w)) (x : String) : Option Int :=
  (s.cells x).map fun v => v.toNat

theorem State.cells_of_naturals (h : s.naturals x = some i) : s.cells x = some (Word.ofInt i) := by
  obtain ⟨v, hv, rfl⟩ := Option.map_eq_some_iff.mp h
  have hword : (Word.ofInt (v.toNat : Int) : BitVec w) = v := by
    simp [Word.ofInt, BitVec.ofInt_natCast]
  rw [hv, hword]

theorem Word.toNat_ofInt_eq_emod (w : Nat) (i : Int) :
    ((Word.ofInt i : BitVec w).toNat : Int) = i % Nat.pow 2 w := by
  have hpos : (0 : Int) < Nat.pow 2 w := Int.natCast_pos.mpr (Nat.pow_pos Nat.two_pos)
  exact (congrArg _ (BitVec.toNat_ofInt i)).trans (Int.toNat_of_nonneg (Int.emod_nonneg i hpos.ne'))

end Asm

namespace Expr

variable {w : Nat} {σ : String → Option Int} {e : Expr}

theorem exists_exact (h : ∀ x ∈ e.names, ∃ i, σ x = some i) : ∃ i, e.exact σ = some i := by
  induction e with
  | num v => exact ⟨v.toInt, rfl⟩
  | var x => exact h x (List.mem_singleton_self x)
  | bin op l r ihl ihr =>
    have ⟨a, ha⟩ := ihl fun x hx => h x (List.mem_append_left _ hx)
    have ⟨b, hb⟩ := ihr fun x hx => h x (List.mem_append_right _ hx)
    exact ⟨op.exact a b, by simp [exact, ha, hb]⟩

-- The code of an expression ends right behind itself, with stack and cells as they were. What it
-- leaves in the accumulator is the value of the expression over the cells, modulo the number of
-- words.
theorem asm_evaluates {code : Code} {s : State (BitVec w)} (h : code.At s.pc e.asm)
    (hn : ∀ x ∈ e.names, ∃ v, s.cells x = some v) :
    ∃ i, e.exact s.naturals = some i ∧
      ∃ t ∈ StateTransition.eval (State.stepWithin? code s.pc e.asm.length) s,
        t.pc = s.pc + e.asm.length ∧ ((t.registers .a).toNat : Int) = i % Nat.pow 2 w ∧
          t.stack = s.stack ∧ t.cells = s.cells := by
  have hvalue : ∀ x ∈ e.names, ∃ i, s.naturals x = some i := fun x hx => by
    have ⟨v, hv⟩ := hn x hx
    exact ⟨v.toNat, Option.map_eq_some_iff.mpr ⟨v, hv, rfl⟩⟩
  have ⟨i, hi⟩ := exists_exact hvalue
  have hword := word_of_exact State.cells_of_naturals hi
  obtain ⟨t, hreach, ht, -⟩ := asm_passes h.within hword
  have hend : t.stepWithin? code s.pc e.asm.length = none := State.stepWithin?_eq_none ht.pc
  refine ⟨i, hi, t, mem_eval.mpr ⟨hreach, hend⟩, ht.pc, ?_, ht.stack, ht.cells⟩
  rw [ht.value, Word.toNat_ofInt_eq_emod]

-- A difference whose right operand is one, too, on a machine of bytes that is about to compute it.
def deficit : Expr :=
  .bin .sub (.var "x") (.bin .sub (.var "y") (.num 1))

def deficitCode : Code :=
  .label .start :: deficit.asm ++ [.instr .halt]

def deficitState : State (BitVec 8) where
  registers _ := 200
  stack := [3, 4]
  cells x := if x = "x" then some 5 else if x = "y" then some 9 else none
  flags := (1, 2)
  pc := 1

-- Five less eight is three less than zero.
theorem deficit_evaluates : deficitCode.At deficitState.pc deficit.asm ∧
    ∃ t ∈ StateTransition.eval (State.stepWithin? deficitCode 1 13) deficitState,
      t.pc = 14 ∧ t.registers .a = 253 ∧ t.stack = [3, 4] ∧ t.cells = deficitState.cells := by
  have hat : deficitCode.At deficitState.pc deficit.asm := List.prefix_append ..
  have hn : ∀ x ∈ deficit.names, ∃ v, deficitState.cells x = some v := by
    rintro x hx
    obtain rfl | rfl : x = "x" ∨ x = "y" := by simpa [deficit, names] using hx
    case inl => exact ⟨5, rfl⟩
    case inr => exact ⟨9, rfl⟩
  obtain ⟨i, hi, t, ht, hpc, ha, hstack, hcells⟩ := asm_evaluates hat hn
  have hexact : deficit.exact deficitState.naturals = some (-3) := by decide
  cases hexact.symm.trans hi
  exact ⟨hat, t, ht, hpc, BitVec.eq_of_toNat_eq (Int.natCast_inj.mp ha), hstack, hcells⟩

end Expr

end Imp
