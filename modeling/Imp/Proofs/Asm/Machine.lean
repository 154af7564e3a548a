import Imp.Asm.Code
import Mathlib.Computability.StateTransition

/-!
The accumulator machine, running a list of lines.

Its words may be of any kind that has the three operations and an order; `BitVec w` are the words of
`w` bits, with wrapping operations and the order of unsigned numbers. A step that the machine cannot
take (a cell or a label that is not there, an empty stack) is no step.
-/

open Relation StateTransition

namespace Imp

namespace Asm

class Word (α : Type) where
  ofInt : Int → α
  apply : Operator → α → α → α
  add_comm : ∀ a b, apply .add a b = apply .add b a
  below : α → α → Bool

namespace Word

def bits (w : Nat) : Operator → BitVec w → BitVec w → BitVec w
  | .add, a, b => a + b
  | .sub, a, b => a - b
  | .mul, a, b => a * b

instance (w : Nat) : Word (BitVec w) where
  ofInt := BitVec.ofInt w
  apply := bits w
  add_comm := BitVec.add_comm
  below := BitVec.ult

end Word

open Word

variable {α : Type}

structure State (α : Type) where
  registers : Register → α
  stack : List α
  cells : String → Option α
  -- the operands of the last comparison
  flags : α × α
  pc : Nat

namespace Jump

variable [Word α] [DecidableEq α]

def taken (flags : α × α) : Jump → Bool
  | always => true
  | equal => flags.1 = flags.2
  | notEqual => flags.1 ≠ flags.2
  | below => Word.below flags.1 flags.2
  | belowOrEqual => !Word.below flags.2 flags.1
  | above => Word.below flags.2 flags.1
  | aboveOrEqual => !Word.below flags.1 flags.2

end Jump

-- The line of a label.
def Code.target? (code : Code) (l : Label) : Option Nat :=
  code.findIdx? (· = .label l)

namespace State

variable [Word α] [DecidableEq α]

def read? (s : State α) : Operand → Option α
  | .const v => some (ofInt v.toInt)
  | .cell x => s.cells x
  | .register r => some (s.registers r)

def put (s : State α) (r : Register) (v : α) : State α :=
  { s with registers := fun q => if q = r then v else s.registers q }

-- Points at the following line.
def next (s : State α) : State α :=
  { s with pc := s.pc + 1 }

-- Runs an instruction; the state already points at the line that follows it.
def exec? (code : Code) (s : State α) : Instr → Option (State α)
  | .load r o => (s.read? o).map (s.put r)
  | .store x r =>
    (s.cells x).map fun _ =>
      { s with cells := fun y => if y = x then some (s.registers r) else s.cells y }
  | .push r => some { s with stack := s.registers r :: s.stack }
  | .pop r =>
    match s.stack with
    | v :: stack => some ({ s with stack := stack }.put r v)
    | [] => none
  | .add r q => some (s.put r (apply .add (s.registers r) (s.registers q)))
  | .sub r q => some (s.put r (apply .sub (s.registers r) (s.registers q)))
  | .mul r => some (s.put .a (apply .mul (s.registers .a) (s.registers r)))
  | .dec r => some (s.put r (apply .sub (s.registers r) (ofInt 1)))
  | .cmp r o => (s.read? o).map fun v => { s with flags := (s.registers r, v) }
  | .jump j l =>
    if j.taken s.flags then (code.target? l).map fun n => { s with pc := n } else some s
  | .halt => none

-- Lines that are no instructions are passed over.
def step? (code : Code) (s : State α) : Option (State α) :=
  match code[s.pc]? with
  | some (.instr i) => s.next.exec? code i
  | some _ => some s.next
  | none => none

-- A step from one of so many lines.
def stepWithin? (code : Code) (first length : Nat) (s : State α) : Option (State α) :=
  if first ≤ s.pc ∧ s.pc < first + length then s.step? code else none

section Within

variable {code : Code} {s t : State α} {first length : Nat}

theorem stepWithin?_eq {k : Nat} (hpc : s.pc = first + k) (hk : k < length) :
    s.stepWithin? code first length = s.step? code :=
  if_pos (by omega)

theorem stepWithin?_eq_none (hpc : s.pc = first + length) :
    s.stepWithin? code first length = none :=
  if_neg (by omega)

theorem step?_of_stepWithin? (h : s.stepWithin? code first length = some t) :
    s.step? code = some t := by
  unfold stepWithin? at h
  split at h
  case isTrue => exact h
  case isFalse => nomatch h

theorem reaches_of_within (h : Reaches (stepWithin? code first length) s t) :
    Reaches (step? code) s t :=
  ReflTransGen.mono (fun _ _ => step?_of_stepWithin?) _ _ h

end Within

-- All registers and cells are zero.
def start (code : Code) : State α where
  registers _ := ofInt 0
  stack := []
  cells x := if .cell x ∈ code then some (ofInt 0) else none
  flags := (ofInt 0, ofInt 0)
  pc := 0

def Halted (code : Code) (s : State α) : Prop :=
  code[s.pc]? = some (.instr .halt)

end State

end Asm

end Imp
