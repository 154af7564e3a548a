import Imp.Proofs.Wat.Typing

/-!
How a WebAssembly text is read.

Of the text format there is what functions on integers of 32 bits need: a module with one function,
its export, result and locals, and its instructions, some of which stand in parentheses with the
instructions inside of them. A text that goes beyond that has no reading.

A text is cut into tokens, and parentheses put the tokens into lists inside of lists. White space is
a space, a tab, a line feed or a carriage return.
-/

namespace Imp

namespace Wat

inductive Token
  | openParen | closeParen
  | word (text : String)
  | str (text : String)
  | bad
deriving DecidableEq, Repr, Inhabited

-- Characters of keywords, numbers and names.
def isIdChar (c : Char) : Bool :=
  c.isAlphanum || "!#$%&'*+-./:<=>?@\\^_`|~".toList.contains c

-- Characters that stand for themselves in a string.
def isStringChar (c : Char) : Bool :=
  c ≠ '"' && c ≠ '\\' && ' ' ≤ c && c ≠ '\x7f'

-- White space or a parenthesis must follow a word or a string.
def separates (cs : List Char) : Bool :=
  cs.head?.all fun c => c.isWhitespace || c = '(' || c = ')'

-- The tokens of a text, up to the first place where there is none.
def tokens : List Char → List Token
  | [] => []
  | c :: cs =>
    if c.isWhitespace then tokens cs
    else if c = '(' then .openParen :: tokens cs
    else if c = ')' then .closeParen :: tokens cs
    else if c = '"' then
      match _h : cs.dropWhile isStringChar with
      | '"' :: rest =>
        if separates rest then .str (String.ofList (cs.takeWhile isStringChar)) :: tokens rest
        else [.bad]
      | _ => [.bad]
    else if isIdChar c && separates (cs.dropWhile isIdChar) then
      .word (String.ofList (c :: cs.takeWhile isIdChar)) :: tokens (cs.dropWhile isIdChar)
    else [.bad]
termination_by cs => cs.length
decreasing_by
  · exact Nat.lt_add_one _
  · exact Nat.lt_add_one _
  · exact Nat.lt_add_one _
  · have := (List.dropWhile_sublist isStringChar (l := cs)).length_le
    rw [_h, List.length_cons] at this
    exact Nat.lt_succ_of_lt this
  · exact Nat.lt_succ_of_le (List.dropWhile_sublist _).length_le

-- A word, a string, or a list in parentheses.
inductive Item
  | word (text : String)
  | str (text : String)
  | list (items : List Item)
deriving Repr, Inhabited

-- Puts tokens into lists, given the items of the list that is open and those of the lists around
-- it, latest first.
def group? (items : List Item) (outer : List (List Item)) : List Token → Option (List Item)
  | [] => if outer.isEmpty then some items.reverse else none
  | .openParen :: ts => group? [] (items :: outer) ts
  | .closeParen :: ts =>
    match outer with
    | up :: outer => group? (.list items.reverse :: up) outer ts
    | [] => none
  | .word w :: ts => group? (.word w :: items) outer ts
  | .str s :: ts => group? (.str s :: items) outer ts
  | .bad :: _ => none

def natural? (ds : List Char) : Option Nat :=
  if ds ≠ [] ∧ ds.all Char.isDigit then some (Nat.ofDigitChars 10 ds 0) else none

-- A literal may be that of a signed or of an unsigned number.
def integer? (w : String) : Option Int32 :=
  match w.toList with
  | '-' :: ds => do
    let n ← natural? ds
    if n ≤ 2147483648 then some (.ofInt (-n)) else none
  | ds => do
    let n ← natural? ds
    if n < 4294967296 then some (.ofInt n) else none

-- A name is written behind a dollar sign.
def name? (w : String) : Option String :=
  match w.toList with
  | '$' :: c :: cs => some (String.ofList (c :: cs))
  | _ => none

def label? (w : String) : Option Label :=
  match w.toList with
  | '$' :: 'e' :: 'x' :: 'i' :: 't' :: '_' :: ds =>
    (natural? ds).map .exit |>.filter (·.text = w)
  | '$' :: 'l' :: 'o' :: 'o' :: 'p' :: '_' :: ds =>
    (natural? ds).map .loop |>.filter (·.text = w)
  | _ => none

-- The instructions that are a word alone.
def plain : List (String × Instr) :=
  [("i32.add", .arith .add), ("i32.sub", .arith .sub), ("i32.mul", .arith .mul),
    ("i32.eqz", .eqz), ("i32.eq", .compare .eq), ("i32.ne", .compare .ne),
    ("i32.lt_s", .compare .lt), ("i32.gt_s", .compare .gt), ("i32.le_s", .compare .le),
    ("i32.ge_s", .compare .ge)]

-- The instructions that are a word with another one behind it.
def immediate? (w operand : String) : Option Instr :=
  match w with
  | "i32.const" => (integer? operand).map .const
  | "local.get" => (name? operand).map .get
  | "local.set" => (name? operand).map .set
  | "br" => (label? operand).map .br
  | "br_if" => (label? operand).map .brIf
  | _ => none

mutual

def code? : List Item → Option Code
  | [] => some []
  | .list items :: rest => do return (← nested? items) :: (← code? rest)
  | .word w :: rest =>
    match plain.lookup w with
    | some i => do return i :: (← code? rest)
    | none =>
      match rest with
      | .word operand :: rest => do return (← immediate? w operand) :: (← code? rest)
      | _ => none
  | .str _ :: _ => none
termination_by items => sizeOf items

-- The instruction that a list stands for.
def nested? : List Item → Option Instr
  | .word "block" :: .word l :: body => do return .block (← label? l) (← code? body)
  | .word "loop" :: .word l :: body => do return .loop (← label? l) (← code? body)
  | [.word "if", .list (.word "then" :: t)] => do return .branch (← code? t) none
  | [.word "if", .list (.word "then" :: t), .list (.word "else" :: f)] => do
    return .branch (← code? t) (some (← code? f))
  | _ => none
termination_by items => sizeOf items

end

-- A function as it stands in a text: its locals are integers of 32 bits.
structure Function where
  name : String
  exported : Option String
  results : List ValueType
  locals : List String
  body : Code
deriving Repr, Inhabited

def export? : List Item → Option String × List Item
  | .list [.word "export", .str e] :: items => (some e, items)
  | items => (none, items)

def results? : List Item → List ValueType × List Item
  | .list [.word "result", .word "i32"] :: items => ([.i32], items)
  | items => ([], items)

def locals? : List Item → Option (List String × List Item)
  | .list [.word "local", .word w, .word "i32"] :: items => do
    let x ← name? w
    let (xs, rest) ← locals? items
    return (x :: xs, rest)
  | items => some ([], items)

def function? : List Item → Option Function
  | .word "func" :: .word f :: items => do
    let (exported, items) := export? items
    let (results, items) := results? items
    let (locals, items) ← locals? items
    return ⟨← name? f, exported, results, locals, ← code? items⟩
  | _ => none

-- The function of the one module that a text holds.
def read? (text : String) : Option Function := do
  let [.list [.word "module", .list items]] ← group? [] [] (tokens text.toList) | none
  function? items

end Wat

end Imp
