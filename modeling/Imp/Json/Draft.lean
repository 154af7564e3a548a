import Imp.Json
import Imp.Json.Lexeme

/-!
Reading JSON text.

A machine with a stack of open brackets builds a draft from the lexemes of a text. A draft is a
document that may break off: where the text stops being JSON it has a broken leaf, and nothing
behind that.
-/

namespace Imp

namespace Json

inductive Draft
  | scalar (value : Scalar)
  | arr (items : List Draft)
  | obj (fields : List (Option String × Draft))
  | broken
deriving Inhabited

-- A draft, and whether more text follows it.
structure Reading where
  draft : Draft
  trailing : Bool
deriving Inhabited

namespace Draft

-- An open bracket and what stands in it so far, latest first; an object's last key has no value
-- yet.
inductive Frame
  | arr (items : List Draft)
  | obj (fields : List (Option String × Draft)) (key : Option String)
deriving Inhabited

inductive Mode
  -- A value must follow.
  | value
  -- An array has been opened.
  | firstItem
  -- An object has been opened.
  | firstKey
  -- A key must follow.
  | key
  -- A colon must follow the key.
  | colon
  -- A comma or a closing bracket must follow.
  | next
  -- The document is complete.
  | done (d : Draft)
deriving Inhabited

structure State where
  frames : List Frame
  mode : Mode
deriving Inhabited

namespace State

def start : State := ⟨[], .value⟩

-- Puts a value in its place.
def put (d : Draft) : List Frame → State
  | [] => ⟨[], .done d⟩
  | .arr xs :: fs => ⟨.arr (d :: xs) :: fs, .next⟩
  | .obj kvs k :: fs => ⟨.obj ((k, d) :: kvs) none :: fs, .next⟩

def atValue? (fs : List Frame) : Lexeme → Option State
  | .scalar v => some (put (.scalar v) fs)
  | .openArr => some ⟨.arr [] :: fs, .firstItem⟩
  | .openObj => some ⟨.obj [] none :: fs, .firstKey⟩
  | _ => none

def atKey? : List Frame → Lexeme → Option State
  | .obj kvs _ :: fs, .scalar (.str k) => some ⟨.obj kvs k :: fs, .colon⟩
  | _, _ => none

-- The state after a lexeme, if it can stand here.
def next? (s : State) (l : Lexeme) : Option State :=
  match s.mode, s.frames, l with
  | .value, fs, l => atValue? fs l
  | .firstItem, .arr _ :: fs, .closeArr => some (put (.arr []) fs)
  | .firstItem, fs, l => atValue? fs l
  | .firstKey, .obj _ _ :: fs, .closeObj => some (put (.obj []) fs)
  | .firstKey, fs, l => atKey? fs l
  | .key, fs, l => atKey? fs l
  | .colon, fs, .colon => some ⟨fs, .value⟩
  | .next, .arr xs :: fs, .comma => some ⟨.arr xs :: fs, .value⟩
  | .next, .arr xs :: fs, .closeArr => some (put (.arr xs.reverse) fs)
  | .next, .obj kvs k :: fs, .comma => some ⟨.obj kvs k :: fs, .key⟩
  | .next, .obj kvs _ :: fs, .closeObj => some (put (.obj kvs.reverse) fs)
  | _, _, _ => none

-- Closes all brackets around a draft that breaks off.
def collapse (d : Draft) : List Frame → Draft
  | [] => d
  | .arr xs :: fs => collapse (.arr (d :: xs).reverse) fs
  | .obj kvs k :: fs => collapse (.obj ((k, d) :: kvs).reverse) fs

-- The draft of a text that breaks off in a state.
def abandon (s : State) : Draft :=
  match s.mode with
  | .done d => d
  | _ => collapse broken s.frames

def read (s : State) : List Lexeme → Reading
  | [] => ⟨s.abandon, false⟩
  | l :: ls =>
    match s.mode, s.next? l with
    | .done d, _ => ⟨d, true⟩
    | _, some s' => s'.read ls
    | _, none => ⟨s.abandon, false⟩

end State

mutual

-- Whether a draft does not break off.
def isWhole : Draft → Bool
  | scalar _ => true
  | arr xs => allWhole xs
  | obj kvs => allFieldsWhole kvs
  | broken => false

def allWhole : List Draft → Bool
  | [] => true
  | d :: ds => d.isWhole && allWhole ds

def allFieldsWhole : List (Option String × Draft) → Bool
  | [] => true
  | (_, d) :: kvs => d.isWhole && allFieldsWhole kvs

end

end Draft

-- Whether a scalar can stand in a document.
def Scalar.isSound : Scalar → Bool
  | num .huge | str none => false
  | _ => true

-- Whether a draft is a document: whole, with readable strings and numbers, and with no more than so
-- many brackets inside one another.
def Draft.isSound : Nat → Draft → Bool
  | _, scalar v => v.isSound
  | n + 1, arr xs => xs.all (isSound n)
  | n + 1, obj kvs => kvs.all fun (k, d) => k.isSome && isSound n d
  | _, _ => false

def read (text : String) : Reading :=
  Draft.State.start.read (Lexeme.all text.toList)

end Json

end Imp
