import Imp.Error
import Imp.Python
import Imp.Wat.Compile

/-!
From a source text straight to one result. Assembly is made from the loop dialect, everything else
from the full one.
-/

namespace Imp

namespace Toolchain

def program (d : Dialect) (text : String) : Except Error Program :=
  (d.parse text).mapError .source

def interpret (limit : Nat) (text : String) : Except Error (Env × Trace) := do
  ((← program .full text).run limit).result

def python (text : String) : Except Error String := do
  return (← program .full text).pythonText Python.defaultIndent

def wat (text : String) : Except Error String := do
  ((← program .full text).watText {}).mapError .undeclared

def assembly (text : String) : Except Error String := do
  ((← program .loop text).asmText).mapError .unsupported

end Toolchain

end Imp
