import Imp.Listing
import Imp.Program.Printer

/-!
Python text of programs: one line per statement, and `pass` for an empty block.
-/

namespace Imp

namespace Python

-- A block has at least one line.
def block (depth : Nat) (ls : Listing) : Listing :=
  if ls.isEmpty then [⟨depth, "pass"⟩] else ls

end Python

mutual

def Stmt.python (depth : Nat) : Stmt → Listing
  | .declare x e | .assign x e => [⟨depth, x ++ " = " ++ e.text 0⟩]
  | .loop c b =>
    ⟨depth, "while " ++ c.text ++ ":"⟩ :: Python.block (depth + 1) (Program.python (depth + 1) b)
  | .branch c t none =>
    ⟨depth, "if " ++ c.text ++ ":"⟩ :: Python.block (depth + 1) (Program.python (depth + 1) t)
  | .branch c t (some f) =>
    ⟨depth, "if " ++ c.text ++ ":"⟩ :: Python.block (depth + 1) (Program.python (depth + 1) t)
      ++ ⟨depth, "else:"⟩ :: Python.block (depth + 1) (Program.python (depth + 1) f)

-- The lines of the statements of a block at a depth.
def Program.python (depth : Nat) : Program → Listing
  | [] => []
  | s :: p => s.python depth ++ Program.python depth p

end

def Python.defaultIndent : String := "    "

def Program.pythonText (indent : String) (p : Program) : String :=
  Listing.render indent (Python.block 0 (p.python 0))

end Imp
