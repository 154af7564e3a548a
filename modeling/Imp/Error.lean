import Imp.Asm.Compile
import Imp.Files.Disk
import Imp.Program.Reader
import Imp.Run
import Imp.Source
import Imp.StepLimit

/-!
All that can go wrong, in one type.
-/

namespace Imp

inductive Error
  | source (e : SourceError)
  | undeclared (u : Undeclared)
  | outOfSteps (limit : Nat)
  | unsupported (e : Asm.Unsupported)
  | limit (e : LimitError)
  | sourceNotFound (path : String)
  | files (e : FileError)
  | json (f : Json.Fault)
deriving DecidableEq, Repr, Inhabited

namespace Error

def message : Error → String
  | source e => e.message
  | undeclared u => u.message
  | outOfSteps n => "step limit exceeded (" ++ toString n ++ "); possible infinite loop"
  | unsupported e => e.message
  | limit e => e.message
  | sourceNotFound path => "source file not found: " ++ path
  | files e => "artifact i/o failed: " ++ e.message
  | json .malformed => "failed to serialize artifact: malformed text"
  | json .mismatched => "failed to serialize artifact: mismatched document"

-- The messages of an error and of what caused it.
def messages : Error → List String
  | files e => (files e).message :: e.messages
  | e => [e.message]

end Error

-- The error that a run ended in.
def Outcome.result : Outcome → Except Error Env
  | finished env => .ok env
  | undeclared u => .error (.undeclared u)
  | outOfSteps n => .error (.outOfSteps n)

-- What a run that comes to its end hands back: the bindings and the entries.
def Run.result (r : Run) : Except Error (Env × Trace) := do
  return (← r.outcome.result, r.trace)

end Imp
