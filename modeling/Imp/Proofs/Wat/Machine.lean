import Imp.Proofs.Exact
import Imp.Wat.Module
import Mathlib.Computability.StateTransition

/-!
Running the code of a WebAssembly function.

The machine keeps the structured code that is left and the blocks around it. Integers are those of
32 bits: arithmetic is exact arithmetic modulo `2 ^ 32`, comparisons read their operands with the
sign and leave one or zero.
-/

open StateTransition

namespace Imp

namespace Wat

-- The values of the locals. A name that is not a local has none.
abbrev Locals := String → Option Int32

-- A block, loop or branch that control is inside of.
structure Frame where
  label : Option Label
  -- what a branch to the label goes on with
  target : Code
  -- what follows at the end
  rest : Code
  -- the operands outside of it
  stack : List Int32
deriving Inhabited

structure State where
  locals : Locals
  stack : List Int32
  code : Code
  frames : List Frame

def arith (op : Operator) (a b : Int32) : Int32 :=
  .ofInt (op.exact a.toInt b.toInt)

def compare (r : Relation) (a b : Int32) : Int32 :=
  if r.exact a.toInt b.toInt then 1 else 0

namespace State

-- Goes to the innermost frame of a label, and drops the operands inside of it.
def branch? (s : State) (l : Label) : Option State :=
  match s.frames.dropWhile (·.label ≠ some l) with
  | [] => none
  | f :: fs => some { s with stack := f.stack, code := f.target, frames := fs }

-- Goes inside a block, which sees none of the operands outside of it.
def enter (s : State) (label : Option Label) (target body : Code) : State :=
  { s with stack := [], code := body, frames := ⟨label, target, s.code, s.stack⟩ :: s.frames }

-- Runs an instruction; the code of the state is what follows it.
def exec? (s : State) : Instr → Option State
  | .const v => some { s with stack := v :: s.stack }
  | .get x => (s.locals x).map fun v => { s with stack := v :: s.stack }
  | .set x =>
    match s.locals x, s.stack with
    | some _, v :: stack =>
      some { s with locals := fun y => if y = x then some v else s.locals y, stack := stack }
    | _, _ => none
  | .arith op =>
    match s.stack with
    | b :: a :: stack => some { s with stack := arith op a b :: stack }
    | _ => none
  | .compare r =>
    match s.stack with
    | b :: a :: stack => some { s with stack := compare r a b :: stack }
    | _ => none
  | .eqz =>
    match s.stack with
    | a :: stack => some { s with stack := (if a = 0 then 1 else 0) :: stack }
    | _ => none
  | .br l => s.branch? l
  | .brIf l =>
    match s.stack with
    | a :: stack =>
      if a = 0 then some { s with stack := stack } else { s with stack := stack }.branch? l
    | _ => none
  | .block l body => some (s.enter l s.code body)
  | .loop l body => some (s.enter l (.loop l body :: s.code) body)
  | .branch t f =>
    match s.stack with
    | a :: stack =>
      some ({ s with stack := stack }.enter none s.code (if a = 0 then f.getD [] else t))
    | _ => none

-- At the end of a block its operands come to lie on those outside of it. At the end of the code
-- there is no step.
def step? (s : State) : Option State :=
  match s.code, s.frames with
  | i :: is, _ => { s with code := is }.exec? i
  | [], f :: fs => some { s with stack := s.stack ++ f.stack, code := f.rest, frames := fs }
  | [], [] => none

end State

namespace Module

-- The function's code: the statements, and the local that it returns.
def body (m : Module) : Code :=
  m.code ++ (m.result.map .get).toList

-- The state at the call of the function.
def entry (m : Module) : State where
  locals := fun x => if x ∈ m.locals then some 0 else none
  stack := []
  code := m.body
  frames := []

-- The function ends, with these operands and locals.
def Returns (m : Module) (stack : List Int32) (locals : Locals) : Prop :=
  Reaches State.step? m.entry ⟨locals, stack, [], []⟩

end Module

end Wat

end Imp
