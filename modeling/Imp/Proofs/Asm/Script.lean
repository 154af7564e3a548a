import Imp.Proofs.Asm.Machine
import Imp.StepLimit

/-!
The accumulator machine, running a text.

Before it starts, the machine goes through the lines for labels and cells; of several with one
name the last one counts. Then it takes the lines apart as it comes to them: an instruction is a
word, and behind a space its operands with commas between them. Registers are told by their names,
and there is one of every name. A text with a line that names something in no known way is not run
at all, and a line that is no instruction is no step when the machine comes to it.
-/

open Relation StateTransition

namespace Imp

namespace Asm

open StepLimit (trim)

-- The words that instructions begin with.
inductive Mnemonic
  | mov | push | pop | add | sub | mul | dec | cmp
  | jump (when : Jump)
  | hlt
deriving DecidableEq, Repr, Inhabited

namespace Mnemonic

def text : Mnemonic → String
  | mov => "MOV"
  | push => "PUSH"
  | pop => "POP"
  | add => "ADD"
  | sub => "SUB"
  | mul => "MUL"
  | dec => "DEC"
  | cmp => "CMP"
  | jump j => j.text
  | hlt => "HLT"

def all : List Mnemonic :=
  [mov, push, pop, add, sub, mul, dec, cmp, jump .always, jump .equal, jump .notEqual, jump .below,
    jump .belowOrEqual, jump .above, jump .aboveOrEqual, hlt]

def read? (w : List Char) : Option Mnemonic :=
  all.find? (·.text.toList = w)

end Mnemonic

-- What a line has the machine do when it comes to it.
inductive Order
  | pass
  | run (m : Mnemonic) (operands : List String)
  | unknown
deriving DecidableEq, Repr, Inhabited

-- What a line gives a name to.
inductive Definition
  | label (name : String)
  | cell (name : String) (value : Int)
deriving DecidableEq, Repr, Inhabited

-- The value that a cell of a name is given.
def Definition.value? (name : String) : Definition → Option Int
  | label _ => none
  | cell x v => if x = name then some v else none

-- The sign of a numeral and the text behind it.
def signed : List Char → Int × List Char
  | '-' :: ds => (-1, ds)
  | '+' :: ds => (1, ds)
  | ds => (1, ds)

-- A numeral of 64 bits, with or without a sign.
def integer? (cs : List Char) : Option Int :=
  let (sign, ds) := signed cs
  let v := sign * Nat.ofDigitChars 10 ds 0
  if ds ≠ [] ∧ ds.all Char.isDigit ∧ -9223372036854775808 ≤ v ∧ v < 9223372036854775808 then some v
  else none

-- What stands in front of the first such character, and what behind it.
def cut? (c : Char) (cs : List Char) : Option (List Char × List Char) :=
  match cs.dropWhile (· ≠ c) with
  | [] => none
  | _ :: rest => some (cs.takeWhile (· ≠ c), rest)

def operandList (cs : List Char) : List String :=
  (((cs.splitOn ',').map trim).filter (!·.isEmpty)).map String.ofList

def order (line : List Char) : Order :=
  if line.isEmpty ∨ line.head? = some ';' ∨ line.getLast? = some ':' ∨ ": DB".toList <:+: line then
    .pass
  else
    let (word, rest) := (cut? ' ' line).getD (line, [])
    match Mnemonic.read? word with
    | some m => .run m (operandList rest)
    | none => .unknown

-- Fails where a colon has something behind it that is no value of a cell.
def definition? (line : List Char) : Option (Option Definition) :=
  if line.head? = some ';' then some none
  else
    match cut? ':' line with
    | none => some none
    | some (name, rest) =>
      let rest := trim rest
      if "DB ".toList <+: rest then
        (integer? (trim (rest.drop 3))).map fun v => some (.cell (String.ofList name) v)
      else if rest.isEmpty then some (some (.label (String.ofList name)))
      else none

-- The lines of a text, without the blanks around them. There is none behind the last line feed.
def rows (text : List Char) : List (List Char) :=
  let ls := text.splitOn '\n'
  (if ls.getLast? = some [] then ls.dropLast else ls).map trim

-- The lines of a text as the machine takes them.
structure Script where
  orders : List Order
  definitions : List (Option Definition)
deriving DecidableEq, Repr, Inhabited

namespace Script

def read? (text : String) : Option Script := do
  let ls := rows text.toList
  return ⟨ls.map order, ← ls.mapM definition?⟩

-- The line of a label, the last one of that name.
def target? (script : Script) (name : String) : Option Nat :=
  script.definitions.zipIdx.reverse.findSome? fun (d, line) =>
    if d = some (.label name) then some line else none

-- What a cell holds at the start.
def value? (script : Script) (name : String) : Option Int :=
  script.definitions.reverse.findSome? (·.bind (Definition.value? name))

-- The name between brackets.
def bracketed? (operand : String) : Option String :=
  match operand.toList with
  | '[' :: cs => if cs.getLast? = some ']' then some (String.ofList cs.dropLast) else none
  | _ => none

variable {α : Type}

structure State (α : Type) where
  registers : String → α
  stack : List α
  memory : String → Option α
  -- the operands of the last comparison
  flags : α × α
  pc : Nat

namespace State

variable [Word α] [DecidableEq α]

-- What is neither a cell nor a numeral is a register.
def read? (s : State α) (operand : String) : Option α :=
  match bracketed? operand with
  | some x => s.memory x
  | none =>
    match integer? operand.toList with
    | some v => some (Word.ofInt v)
    | none => some (s.registers operand)

def write? (s : State α) (operand : String) (v : α) : Option (State α) :=
  match bracketed? operand with
  | some x =>
    (s.memory x).map fun _ => { s with memory := fun y => if y = x then some v else s.memory y }
  | none => some { s with registers := fun r => if r = operand then v else s.registers r }

-- Points at the following line.
def next (s : State α) : State α :=
  { s with pc := s.pc + 1 }

-- Runs an instruction; the state already points at the line that follows it.
def exec? (script : Script) (s : State α) : Mnemonic → List String → Option (State α)
  | .mov, target :: source :: _ => do s.write? target (← s.read? source)
  | .push, source :: _ => do return { s with stack := (← s.read? source) :: s.stack }
  | .pop, target :: _ =>
    match s.stack with
    | v :: stack => { s with stack := stack }.write? target v
    | [] => none
  | .add, target :: source :: _ => do
    s.write? target (Word.apply .add (← s.read? target) (← s.read? source))
  | .sub, target :: source :: _ => do
    s.write? target (Word.apply .sub (← s.read? target) (← s.read? source))
  | .mul, source :: _ => do s.write? "A" (Word.apply .mul (← s.read? "A") (← s.read? source))
  | .dec, target :: _ => do s.write? target (Word.apply .sub (← s.read? target) (Word.ofInt 1))
  | .cmp, left :: right :: _ => do return { s with flags := (← s.read? left, ← s.read? right) }
  | .jump j, operands =>
    if j.taken s.flags then do return { s with pc := ← script.target? (← operands.head?) }
    else some s
  | _, _ => none

def step? (script : Script) (s : State α) : Option (State α) :=
  match script.orders[s.pc]? with
  | some .pass => some s.next
  | some (.run m operands) => s.next.exec? script m operands
  | _ => none

-- A step from one of so many lines.
def stepWithin? (script : Script) (first length : Nat) (s : State α) : Option (State α) :=
  if first ≤ s.pc ∧ s.pc < first + length then s.step? script else none

-- All registers are zero, and the cells hold what their lines say.
def start (script : Script) : State α where
  registers _ := Word.ofInt 0
  stack := []
  memory x := (script.value? x).map Word.ofInt
  flags := (Word.ofInt 0, Word.ofInt 0)
  pc := 0

def Halted (script : Script) (s : State α) : Prop :=
  ∃ operands, script.orders[s.pc]? = some (.run .hlt operands)

theorem Halted.step?_eq_none {script : Script} {s : State α} (h : s.Halted script) :
    s.step? script = none := by
  obtain ⟨operands, h⟩ := h
  simp only [step?, h, exec?]

-- A run halts in one state only.
theorem Halted.unique {script : Script} {s t u : State α} (ht : t.Halted script)
    (hu : u.Halted script) (hst : Reaches (step? script) s t) (hsu : Reaches (step? script) s u) :
    t = u :=
  Part.mem_unique (mem_eval.mpr ⟨hst, ht.step?_eq_none⟩) (mem_eval.mpr ⟨hsu, hu.step?_eq_none⟩)

-- What is found after a number of steps is found in a state that the run passes.
theorem exists_reaches_of_any {script : Script} {P : State α → Bool} {s : State α} (k : Nat)
    (h : ((Option.bind · (step? script))^[k] (some s)).any P) :
    ∃ t, Reaches (step? script) s t ∧ P t := by
  induction k generalizing s with
  | zero => exact ⟨s, .refl, h⟩
  | succ k ih =>
    have hnone : (Option.bind · (step? script))^[k] (none : Option (State α)) = none :=
      Function.iterate_fixed rfl k
    rw [Function.iterate_succ_apply, Option.bind_some] at h
    cases hs : s.step? script with
    | none => simp [hs, hnone] at h
    | some s' =>
      obtain ⟨t, hreach, ht⟩ := ih (hs ▸ h)
      exact ⟨t, .head hs hreach, ht⟩

end State

theorem exists_reaches_of_read? [Word α] [DecidableEq α] {text : String}
    {P : Script → State α → Bool} (k : Nat)
    (h : (read? text).any fun script =>
      ((Option.bind · (State.step? script))^[k] (some (.start script))).any (P script)) :
    ∃ script, read? text = some script ∧
      ∃ t, Reaches (State.step? script) (State.start script) t ∧ P script t := by
  cases hread : read? text with
  | none => simp [hread] at h
  | some script =>
    rw [hread] at h
    exact ⟨script, rfl, State.exists_reaches_of_any k h⟩

end Script

end Asm

end Imp
