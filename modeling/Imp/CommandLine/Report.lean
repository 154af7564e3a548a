import Imp.Error

/-!
Printed text and the report of a failure.
-/

namespace Imp

namespace CommandLine

-- A result and the text that was printed on the way to it. The text stays when the result is an
-- error.
structure Printed (α : Type) where
  text : String
  result : Except Error α
deriving Inhabited

namespace Printed

def ofText (text : String) : Printed Unit :=
  ⟨text, .ok ()⟩

def ofResult {α : Type} (result : Except Error α) : Printed α :=
  ⟨"", result⟩

def andThen {α β : Type} (p : Printed α) (next : α → Printed β) : Printed β :=
  match p.result with
  | .error e => ⟨p.text, .error e⟩
  | .ok a =>
    let q := next a
    ⟨p.text ++ q.text, q.result⟩

instance : Monad Printed where
  pure a := ofResult (.ok a)
  bind := andThen

end Printed

def lines (ls : List String) : String :=
  String.join (ls.map (· ++ "\n"))

-- A text behind a first margin; its further lines stand behind another one.
def hanging (first margin text : String) : String :=
  first ++ String.join (text.toList.map fun c => if c = '\n' then "\n" ++ margin else c.toString)

-- The causes of a failure, numbered if there are several.
def causeLines : List String → List String
  | [m] => [hanging "    " "    " m]
  | ms => ms.zipIdx.map fun (m, i) =>
    hanging (String.ofList (List.leftpad 5 ' ' (Nat.toDigits 10 i)) ++ ": ") "       " m

-- What is printed about a failure: what was attempted, and why that did not succeed.
def failureReport (attempt : String) (e : Error) : String :=
  lines (["Error: " ++ attempt, "", "Caused by:"] ++ causeLines e.messages)

end CommandLine

end Imp
