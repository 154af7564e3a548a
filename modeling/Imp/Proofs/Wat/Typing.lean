import Imp.Wat.Module

/-!
Types of WebAssembly code: what it takes from the stack and leaves there, given the locals of its
function and the labels of the blocks and loops around it.
-/

namespace Imp

namespace Wat

inductive ValueType
  | i32 | i64 | f32 | f64
deriving DecidableEq, Repr, Inhabited

-- The types of operands, the topmost one first.
abbrev StackType := List ValueType

mutual

-- An instruction takes operands of the first types from the stack and leaves operands of the
-- second types.
inductive Instr.Typed (locals : List String) : List Label → Instr → StackType → StackType → Prop
  | const {ls v} : Instr.Typed locals ls (.const v) [] [.i32]
  | get {ls x} (declared : x ∈ locals) : Instr.Typed locals ls (.get x) [] [.i32]
  | set {ls x} (declared : x ∈ locals) : Instr.Typed locals ls (.set x) [.i32] []
  | arith {ls op} : Instr.Typed locals ls (.arith op) [.i32, .i32] [.i32]
  | compare {ls r} : Instr.Typed locals ls (.compare r) [.i32, .i32] [.i32]
  | eqz {ls} : Instr.Typed locals ls .eqz [.i32] [.i32]
  -- What follows a branch that is always taken may find anything on the stack.
  | br {ls l ts us} (inside : l ∈ ls) : Instr.Typed locals ls (.br l) ts us
  | brIf {ls l} (inside : l ∈ ls) : Instr.Typed locals ls (.brIf l) [.i32] []
  | block {ls l c} (body : Code.Typed locals (l :: ls) c [] []) :
    Instr.Typed locals ls (.block l c) [] []
  | loop {ls l c} (body : Code.Typed locals (l :: ls) c [] []) :
    Instr.Typed locals ls (.loop l c) [] []
  | branch {ls c} (consequent : Code.Typed locals ls c [] []) :
    Instr.Typed locals ls (.branch c none) [.i32] []
  | branchElse {ls c d} (consequent : Code.Typed locals ls c [] [])
    (alternate : Code.Typed locals ls d [] []) :
    Instr.Typed locals ls (.branch c (some d)) [.i32] []

-- Operands below those that an instruction takes stay as they are.
inductive Code.Typed (locals : List String) : List Label → Code → StackType → StackType → Prop
  | nil {ls ts} : Code.Typed locals ls [] ts ts
  | cons {ls i c ts us vs ws} (first : Instr.Typed locals ls i ts us)
    (rest : Code.Typed locals ls c (us ++ vs) ws) : Code.Typed locals ls (i :: c) (ts ++ vs) ws

end

namespace Code.Typed

variable {locals : List String} {ls : List Label} {c d : Code} {i : Instr} {ts us vs : StackType}

theorem append (hc : Code.Typed locals ls c ts us) (hd : Code.Typed locals ls d us vs) :
    Code.Typed locals ls (c ++ d) ts vs := by
  induction c generalizing ts with
  | nil =>
    cases hc
    exact hd
  | cons i c ih =>
    cases hc with
    | cons hi hc => exact .cons hi (ih hc)

theorem single (h : Instr.Typed locals ls i ts us) : Code.Typed locals ls [i] ts us := by
  have hnil : Code.Typed locals ls [] (us ++ []) us := us.append_nil.symm ▸ .nil
  have := Code.Typed.cons h hnil
  rwa [List.append_nil] at this

-- Operands below those that code takes stay as they are, too.
theorem frame (h : Code.Typed locals ls c ts us) (vs : StackType) :
    Code.Typed locals ls c (ts ++ vs) (us ++ vs) := by
  induction c generalizing ts with
  | nil =>
    cases h
    exact .nil
  | cons i c ih =>
    cases h with
    | cons hi hc =>
      have := ih hc
      rw [List.append_assoc] at this ⊢
      exact .cons hi this

end Code.Typed

mutual

-- The labels of blocks and loops, in the order of their text.
def Instr.labels : Instr → List Label
  | .block l c | .loop l c => l :: Code.labels c
  | .branch c none => Code.labels c
  | .branch c (some d) => Code.labels c ++ Code.labels d
  | _ => []

def Code.labels : Code → List Label
  | [] => []
  | i :: c => i.labels ++ Code.labels c

end

@[simp]
theorem Code.labels_append (c d : Code) : Code.labels (c ++ d) = c.labels ++ d.labels := by
  induction c with
  | nil => rfl
  | cons i c ih => simp [labels, ih]

end Wat

end Imp
