/-!
The two dialects of the language: the full one has `if` and `else`, in the loop dialect these two
are ordinary names.
-/

namespace Imp

inductive Dialect
  | full | loop
deriving DecidableEq, Repr, Inhabited

namespace Dialect

def name : Dialect → String
  | full => "full"
  | loop => "loop"

def hasConditionals : Dialect → Bool
  | full => true
  | loop => false

def ofName? (s : String) : Option Dialect :=
  [full, loop].find? (·.name = s)

end Dialect

end Imp
