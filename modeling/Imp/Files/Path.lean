/-!
Paths as text. Names are separated by slashes, and a path that starts with one is absolute.
-/

namespace Imp

namespace Path

def isAbsolute (p : String) : Bool :=
  p.toList.head? = some '/'

-- Joins two paths; an absolute one replaces what stands before it.
def join (p q : String) : String :=
  if isAbsolute q || p.isEmpty || p.toList.getLast? = some '/' then
    if isAbsolute q then q else p ++ q
  else p ++ "/" ++ q

-- The parts between slashes, at least one.
def split : List Char → List (List Char)
  | [] => [[]]
  | c :: cs =>
    if c = '/' then [] :: split cs
    else
      match split cs with
      | [] => [[c]]
      | w :: ws => (c :: w) :: ws

def parts (p : String) : List String :=
  (split p.toList).map String.ofList

-- The parts that name something.
def names (p : String) : List String :=
  (parts p).filter fun n => n ≠ "" && n ≠ "."

-- Whether parts are what is left behind the last name of a path that ends in slashes.
def isOnlySlashes (ps : List String) : Bool :=
  !ps.isEmpty && ps.all String.isEmpty

-- The paths up to each part that names something, given the parts in reverse order.
def ancestorsOf : List String → List String
  | [] => []
  | n :: above =>
    if n = "" ∨ n = "." then ancestorsOf above
    else "/".intercalate (n :: above).reverse :: ancestorsOf above

-- The paths that end in a name of a path, the longest first.
def ancestors (p : String) : List String :=
  ancestorsOf (parts p).reverse

-- Names with slashes between them.
def ofNames (ns : List String) : String :=
  "/".intercalate ns

end Path

end Imp
