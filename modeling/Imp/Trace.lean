import Imp.Env
import Imp.Json

/-!
The record of a run: one entry for every declaration, assignment and test, with the bindings right
after it.
-/

namespace Imp

inductive Event
  | declared (name : String) (before : Option Int32) (after : Int32) (expr : String)
  | assigned (name : String) (before after : Int32) (expr : String)
  | loopTest (condition : String) (result : Bool)
  | branchTest (condition : String) (result : Bool)
deriving DecidableEq, Repr, Inhabited

structure Entry where
  step : Nat
  event : Event
  env : Env
deriving DecidableEq, Inhabited

abbrev Trace := List Entry

def Env.json (env : Env) : Json :=
  .obj (env.bindings.map fun (x, v) => (x, .int v.toInt))

namespace Event

def kindName : Event → String
  | declared .. => "VarDeclaration"
  | assigned .. => "Assignment"
  | loopTest .. => "WhileTest"
  | branchTest .. => "IfTest"

def fields : Event → List (String × Json)
  | declared x before after e =>
    [("name", .str x), ("before", before.elim .null fun v => .int v.toInt),
      ("after", .int after.toInt), ("expr", .str e)]
  | assigned x before after e =>
    [("name", .str x), ("before", .int before.toInt), ("after", .int after.toInt), ("expr", .str e)]
  | loopTest c r | branchTest c r => [("condition", .str c), ("result", .bool r)]

end Event

namespace Entry

def json (e : Entry) : Json :=
  .obj (("step", .int e.step) :: ("kind", .str e.event.kindName) :: e.event.fields
    ++ [("env", e.env.json)])

-- Step numbers have at least four digits.
def label (e : Entry) : String :=
  "[" ++ String.ofList (List.leftpad 4 '0' (Nat.toDigits 10 e.step)) ++ "] "

-- The line of an entry in a printed trace.
def line (e : Entry) : String :=
  e.label ++
    match e.event with
    | .declared x _ after text =>
      "var " ++ x ++ " = " ++ text ++ "  (-> " ++ toString after.toInt
        ++ ")  env=" ++ e.env.json.compact
    | .assigned x before after text =>
      x ++ " = " ++ text ++ "  (" ++ toString before.toInt ++ " -> " ++ toString after.toInt
        ++ ")  env=" ++ e.env.json.compact
    | .loopTest c r => "while (" ++ c ++ ") => " ++ toString r
    | .branchTest c r => "if (" ++ c ++ ") => " ++ toString r

end Entry

def Trace.json (t : Trace) : Json :=
  .arr (t.map Entry.json)

end Imp
