import Imp.Listing
import Imp.Operator

/-!
WebAssembly modules with one function, and their text.
-/

namespace Imp

namespace Wat

inductive Label
  | exit (number : Nat)
  | loop (number : Nat)
deriving DecidableEq, Repr, Inhabited

inductive Instr
  | const (value : Int32)
  | get (name : String)
  | set (name : String)
  | arith (op : Operator)
  | compare (rel : Relation)
  | eqz
  | br (label : Label)
  | brIf (label : Label)
  | block (label : Label) (body : List Instr)
  | loop (label : Label) (body : List Instr)
  | branch (consequent : List Instr) (alternate : Option (List Instr))
deriving Repr, Inhabited

abbrev Code := List Instr

structure Module where
  function : String
  -- The name that the function is exported under.
  exported : Option String
  -- The local that the function returns.
  result : Option String
  locals : List String
  code : Code
deriving Repr, Inhabited

def Label.text : Label → String
  | exit n => "$exit_" ++ toString n
  | loop n => "$loop_" ++ toString n

def arithText : Operator → String
  | .add => "i32.add"
  | .sub => "i32.sub"
  | .mul => "i32.mul"

def compareText : Relation → String
  | .gt => "i32.gt_s"
  | .lt => "i32.lt_s"
  | .ge => "i32.ge_s"
  | .le => "i32.le_s"
  | .eq => "i32.eq"
  | .ne => "i32.ne"

mutual

def Instr.listing (depth : Nat) : Instr → Listing
  | .const v => [⟨depth, "i32.const " ++ toString v.toInt⟩]
  | .get x => [⟨depth, "local.get $" ++ x⟩]
  | .set x => [⟨depth, "local.set $" ++ x⟩]
  | .arith op => [⟨depth, arithText op⟩]
  | .compare r => [⟨depth, compareText r⟩]
  | .eqz => [⟨depth, "i32.eqz"⟩]
  | .br l => [⟨depth, "br " ++ l.text⟩]
  | .brIf l => [⟨depth, "br_if " ++ l.text⟩]
  | .block l body => ⟨depth, "(block " ++ l.text⟩ :: Code.listing (depth + 1) body ++ [⟨depth, ")"⟩]
  | .loop l body => ⟨depth, "(loop " ++ l.text⟩ :: Code.listing (depth + 1) body ++ [⟨depth, ")"⟩]
  | .branch t none =>
    [⟨depth, "(if"⟩, ⟨depth + 1, "(then"⟩] ++ Code.listing (depth + 2) t
      ++ [⟨depth + 1, ")"⟩, ⟨depth, ")"⟩]
  | .branch t (some f) =>
    [⟨depth, "(if"⟩, ⟨depth + 1, "(then"⟩] ++ Code.listing (depth + 2) t
      ++ [⟨depth + 1, ")"⟩, ⟨depth + 1, "(else"⟩] ++ Code.listing (depth + 2) f
      ++ [⟨depth + 1, ")"⟩, ⟨depth, ")"⟩]

def Code.listing (depth : Nat) : Code → Listing
  | [] => []
  | i :: is => i.listing depth ++ Code.listing depth is

end

namespace Module

def header (m : Module) : String :=
  "(func $" ++ m.function ++ (m.exported.elim "" fun e => " (export \"" ++ e ++ "\")")
    ++ (if m.result.isSome then " (result i32)" else "")

def listing (m : Module) : Listing :=
  [⟨0, "(module"⟩, ⟨1, m.header⟩]
    ++ m.locals.map (fun x => ⟨2, "(local $" ++ x ++ " i32)"⟩)
    ++ Code.listing 2 m.code
    ++ (m.result.toList.flatMap fun x => Instr.listing 2 (.get x))
    ++ [⟨1, ")"⟩, ⟨0, ")"⟩]

def text (indent : String) (m : Module) : String :=
  m.listing.render indent

end Module

end Wat

end Imp
