import Imp.Operator

/-!
Assembly of a small accumulator machine, and its text.

The machine has three registers, a stack, named cells, and jumps that read the flags of the last
comparison as one of unsigned numbers.
-/

namespace Imp

namespace Asm

inductive Register
  | a | b | c
deriving DecidableEq, Repr, Inhabited

inductive Label
  | start
  | loopStart (number : Nat)
  | loopEnd (number : Nat)
  | decremented (name : String) (number : Nat)
deriving DecidableEq, Repr, Inhabited

inductive Operand
  | const (value : Int32)
  | cell (name : String)
  | register (r : Register)
deriving DecidableEq, Repr, Inhabited

inductive Jump
  | always | equal | notEqual | below | belowOrEqual | above | aboveOrEqual
deriving DecidableEq, Repr, Inhabited

inductive Instr
  | load (target : Register) (source : Operand)
  | store (name : String) (source : Register)
  | push (r : Register)
  | pop (r : Register)
  | add (target source : Register)
  | sub (target source : Register)
  -- The product of the accumulator and a register, into the accumulator.
  | mul (r : Register)
  | dec (r : Register)
  | cmp (left : Register) (right : Operand)
  | jump (when : Jump) (target : Label)
  | halt
deriving DecidableEq, Repr, Inhabited

inductive Line
  | instr (i : Instr)
  | label (l : Label)
  | cell (name : String)
  -- The note above a saturating decrement.
  | note (name : String)
  | blank
deriving DecidableEq, Repr, Inhabited

abbrev Code := List Line

def Register.text : Register → String
  | a => "A"
  | b => "B"
  | c => "C"

def cellName (x : String) : String := "var_" ++ x

def Label.text : Label → String
  | start => "start"
  | loopStart n => "while_start_" ++ toString n
  | loopEnd n => "while_end_" ++ toString n
  | decremented x n => "dec_done_" ++ x ++ "_" ++ toString n

def Operand.text : Operand → String
  | const v => toString v.toInt
  | cell x => "[" ++ cellName x ++ "]"
  | register r => r.text

def Jump.text : Jump → String
  | always => "JMP"
  | equal => "JE"
  | notEqual => "JNE"
  | below => "JB"
  | belowOrEqual => "JBE"
  | above => "JA"
  | aboveOrEqual => "JAE"

def Instr.text : Instr → String
  | load r o => "MOV " ++ r.text ++ ", " ++ o.text
  | store x r => "MOV [" ++ cellName x ++ "], " ++ r.text
  | push r => "PUSH " ++ r.text
  | pop r => "POP " ++ r.text
  | add r s => "ADD " ++ r.text ++ ", " ++ s.text
  | sub r s => "SUB " ++ r.text ++ ", " ++ s.text
  | mul r => "MUL " ++ r.text
  | dec r => "DEC " ++ r.text
  | cmp r o => "CMP " ++ r.text ++ ", " ++ o.text
  | jump j l => j.text ++ " " ++ l.text
  | halt => "HLT"

def Line.text : Line → String
  | instr i => i.text
  | label l => l.text ++ ":"
  | cell x => cellName x ++ ": DB 0"
  | note x => "; Saturated decrement for " ++ x ++ ": if (" ++ x ++ " > 0) " ++ x ++ "--"
  | blank => ""

-- Every line ends in a line feed.
def Code.text (ls : Code) : String :=
  String.join (ls.map (·.text ++ "\n"))

end Asm

end Imp
