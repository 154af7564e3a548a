/-!
JSON documents and their text.

`write` prints a document in a layout. The compact layout has no white space, the pretty one puts
every element on a line of its own, indented by two spaces for each level around it.
-/

namespace Imp

inductive Json
  | null
  | bool (value : Bool)
  | int (value : Int)
  | str (value : String)
  | arr (items : List Json)
  | obj (fields : List (String × Json))
deriving Inhabited

namespace Json

-- The text of a character inside a string.
def escape (c : Char) : List Char :=
  if c = '"' then ['\\', '"']
  else if c = '\\' then ['\\', '\\']
  else if c = '\x08' then ['\\', 'b']
  else if c = '\x0c' then ['\\', 'f']
  else if c = '\n' then ['\\', 'n']
  else if c = '\r' then ['\\', 'r']
  else if c = '\t' then ['\\', 't']
  else if c.toNat < 32 then
    ['\\', 'u', '0', '0', (c.toNat / 16).digitChar, (c.toNat % 16).digitChar]
  else [c]

def quote (s : String) : List Char :=
  '"' :: s.toList.flatMap escape ++ ['"']

def number : Int → List Char
  | .ofNat n => Nat.toDigits 10 n
  | .negSucc n => '-' :: Nat.toDigits 10 (n + 1)

-- White space around the marks of a document.
structure Layout where
  -- What stands before an element or a closing bracket at a depth.
  newline : Nat → List Char
  -- What stands between a colon and its value.
  afterColon : List Char

def Layout.compact : Layout where
  newline _ := []
  afterColon := []

def Layout.pretty : Layout where
  newline depth := '\n' :: List.replicate (2 * depth) ' '
  afterColon := [' ']

mutual

-- The text of a document at a depth, in front of the text that follows it.
def write (l : Layout) (depth : Nat) : Json → List Char → List Char
  | null, rest => "null".toList ++ rest
  | bool true, rest => "true".toList ++ rest
  | bool false, rest => "false".toList ++ rest
  | int n, rest => number n ++ rest
  | str s, rest => quote s ++ rest
  | arr [], rest => '[' :: ']' :: rest
  | arr (v :: vs), rest =>
    '[' :: l.newline (depth + 1) ++ write l (depth + 1) v
      (writeItems l (depth + 1) vs (l.newline depth ++ ']' :: rest))
  | obj [], rest => '\x7b' :: '\x7d' :: rest
  | obj ((k, v) :: fs), rest =>
    '\x7b' :: l.newline (depth + 1) ++ quote k ++ ':' :: l.afterColon ++ write l (depth + 1) v
      (writeFields l (depth + 1) fs (l.newline depth ++ '\x7d' :: rest))

def writeItems (l : Layout) (depth : Nat) : List Json → List Char → List Char
  | [], rest => rest
  | v :: vs, rest => ',' :: l.newline depth ++ write l depth v (writeItems l depth vs rest)

def writeFields (l : Layout) (depth : Nat) : List (String × Json) → List Char → List Char
  | [], rest => rest
  | (k, v) :: fs, rest =>
    ',' :: l.newline depth ++ quote k ++ ':' :: l.afterColon ++ write l depth v
      (writeFields l depth fs rest)

end

def compact (j : Json) : String := String.ofList (j.write .compact 0 [])

def pretty (j : Json) : String := String.ofList (j.write .pretty 0 [])

end Json

end Imp
