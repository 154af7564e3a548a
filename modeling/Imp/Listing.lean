/-!
Listings: lines of text, each with the number of levels it is indented by.
-/

namespace Imp

structure Line where
  depth : Nat
  text : String
deriving DecidableEq, Repr, Inhabited

abbrev Listing := List Line

-- The blank in front of a line at a depth.
def Line.margin (indent : String) : Nat → String
  | 0 => ""
  | depth + 1 => indent ++ margin indent depth

def Line.render (indent : String) (l : Line) : String :=
  margin indent l.depth ++ l.text

-- Every line ends in a line feed.
def Listing.render (indent : String) (ls : Listing) : String :=
  String.join (ls.map (·.render indent ++ "\n"))

end Imp
