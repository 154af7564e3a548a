/-!
Text with control sequences for terminals, and what is left of it where there is no terminal.

A reader passes over control sequences and control characters and shows the rest. Blanks are shown
even inside of a sequence; such a blank also lets the text behind it be shown, up to the next
control character, and only then does the reader take up the sequence again.
-/

namespace Imp

namespace Terminal

-- What the reader is in the middle of.
inductive Mode
  | ground
  | escape
  | escapeIntermediate
  -- A sequence of parameters that ends in a letter or a sign above the digits.
  | control
  -- The three parts in front of a device control string.
  | deviceEntry | deviceParam | deviceIntermediate
  -- A string that a byte `9c` ends.
  | string
  -- A string that a bell ends.
  | command
deriving DecidableEq, Repr, Inhabited

def between (low high : Char) (c : Char) : Bool :=
  low ≤ c && c ≤ high

-- The blanks among the control characters.
def isBlank (c : Char) : Bool :=
  c = '\t' || c = '\n' || c = '\x0c' || c = '\r'

-- Characters that are shown outside of control sequences.
def isPlain (c : Char) : Bool :=
  isBlank c || between ' ' '~' c || 0x80 ≤ c.toNat

namespace Mode

def afterEscape (c : Char) : Mode :=
  if between ' ' '/' c then escapeIntermediate
  else if c = '[' then control
  else if c = ']' then command
  else if c = 'P' then deviceEntry
  else if c = 'X' || c = '^' || c = '_' then string
  else if between '0' '~' c then ground
  else escape

-- The mode after a character that is passed over or shown in a mode.
def next (m : Mode) (c : Char) : Mode :=
  if c = '\x18' || c = '\x1a' then ground
  else if c = '\x1b' then escape
  else
    match m with
    | ground => ground
    | escape => afterEscape c
    | escapeIntermediate => if between '0' '~' c then ground else escapeIntermediate
    | control => if between '@' '~' c then ground else control
    | deviceEntry =>
      if between ' ' '/' c then deviceIntermediate
      else if between '0' '?' c then deviceParam
      else if between '@' '~' c then string
      else deviceEntry
    | deviceParam =>
      if between ' ' '/' c then deviceIntermediate
      else if between '<' '~' c then string
      else deviceParam
    | deviceIntermediate => if between '0' '~' c then string else deviceIntermediate
    | string => if (String.utf8EncodeChar c).contains 0x9c then ground else string
    | command => if c = '\x07' then ground else command

def shows (m : Mode) (c : Char) : Bool :=
  match m with
  | ground => isPlain c
  | escape | escapeIntermediate | control => isBlank c
  | _ => false

end Mode

-- What is shown of a text. While `showing`, plain characters are shown whatever the mode is, and
-- one beyond ASCII ends the sequence that a blank has interrupted.
def strip (showing : Bool) (m : Mode) : List Char → List Char
  | [] => []
  | c :: cs =>
    if showing && isPlain c then c :: strip true (if 0x80 ≤ c.toNat then .ground else m) cs
    else if m.shows c then c :: strip true (m.next c) cs
    else strip false (m.next c) cs

-- A text as it is shown without a terminal.
def plain (text : String) : String :=
  String.ofList (strip false .ground text.toList)

-- A text in another colour.
def marked (text : String) : String :=
  "\x1b[33m" ++ text ++ "\x1b[0m"

end Terminal

end Imp
