import Imp.CommandLine.Argument
import Imp.Dialect
import Imp.StepLimit
import Imp.Terminal

/-!
The arguments of the command line.

The arguments are scanned one by one. The value of an option may follow it as an argument of its
own; the option is then pending, and it is accepted when the next option, switch or file is met, or
at the end. An argument that is not known counts before a fault of a pending one.
-/

namespace Imp

namespace CommandLine

inductive UsageError
  | unexpected (arg : String)
  | valueRequired (arg : Argument)
  | repeated (arg : Argument)
  | unneededValue (value : String) (arg : Argument)
  | invalidDialect (value : String)
  | invalidSteps (value : String) (e : LimitError)
deriving DecidableEq, Repr, Inhabited

namespace UsageError

-- The message for a terminal. What was given on the command line is marked in it.
def message : UsageError → String
  | unexpected a => "error: unexpected argument '" ++ Terminal.marked a ++ "' found"
  | valueRequired a => "error: a value is required for '" ++ a.usage ++ "' but none was supplied"
  | repeated a => "error: the argument '" ++ a.usage ++ "' cannot be used multiple times"
  | unneededValue v a =>
    "error: unexpected value '" ++ Terminal.marked v ++ "' for '" ++ a.usage
      ++ "' found; no more were expected"
  | invalidDialect v =>
    "error: invalid value '" ++ Terminal.marked v ++ "' for '"
      ++ (Argument.param .dialect).usage ++ "'"
  | invalidSteps v e =>
    "error: invalid value '" ++ Terminal.marked v ++ "' for '"
      ++ (Argument.param .maxSteps).usage ++ "': " ++ e.message

-- What is printed about an error where there is no terminal.
def report (e : UsageError) : String :=
  Terminal.plain <| e.message ++ "\n\nFor more information, try '"
    ++ Terminal.marked (Argument.notice .help).usage ++ "'.\n"

end UsageError

-- What has been accepted; of a switch and its opposite the later one alone.
structure Given where
  file : Option String := none
  root : Option String := none
  dialect : Option Dialect := none
  maxSteps : Option Nat := none
  switches : List Switch := []
deriving DecidableEq, Repr, Inhabited

namespace Given

def acceptSwitch (g : Given) (s : Switch) : Except UsageError Given :=
  if s ∈ g.switches then .error (.repeated (.switch s))
  else .ok { g with switches := s :: g.switches.filter (some · ≠ s.opposite?) }

def acceptFile (g : Given) (value : String) : Except UsageError Given :=
  if g.file.isSome then .error (.repeated (.param .file)) else .ok { g with file := some value }

def acceptRoot (g : Given) (value : String) : Except UsageError Given :=
  if g.root.isSome then .error (.repeated (.param .root))
  else if value.isEmpty then .error (.valueRequired (.param .root))
  else .ok { g with root := some value }

def acceptDialect (g : Given) (value : String) : Except UsageError Given :=
  if g.dialect.isSome then .error (.repeated (.param .dialect))
  else if value.isEmpty then .error (.valueRequired (.param .dialect))
  else
    match Dialect.ofName? value with
    | some d => .ok { g with dialect := some d }
    | none => .error (.invalidDialect value)

def acceptMaxSteps (g : Given) (value : String) : Except UsageError Given :=
  if g.maxSteps.isSome then .error (.repeated (.param .maxSteps))
  else
    match StepLimit.ofText value with
    | .ok n => .ok { g with maxSteps := some n }
    | .error e => .error (.invalidSteps value e)

def accept (g : Given) (p : Param) (value : Option String) : Except UsageError Given :=
  match p, value with
  | p, none => .error (.valueRequired (.param p))
  | .file, some v => g.acceptFile v
  | .root, some v => g.acceptRoot v
  | .dialect, some v => g.acceptDialect v
  | .maxSteps, some v => g.acceptMaxSteps v

end Given

structure Scan where
  given : Given := {}
  -- A parameter that is not accepted yet, with its value if it has one.
  pending : Option (Param × Option String) := none
  -- Whether all further arguments are files.
  filesOnly : Bool := false
  -- Whether a file has been met.
  hasFile : Bool := false
deriving DecidableEq, Repr, Inhabited

-- Why a scan stops before its end.
inductive Stop
  | error (e : UsageError)
  | notice (n : Notice)
deriving DecidableEq, Repr, Inhabited

namespace Scan

-- Accepts what is pending.
def settle (s : Scan) : Except Stop Scan :=
  match s.pending with
  | none => .ok s
  | some (p, v) =>
    match s.given.accept p v with
    | .error e => .error (.error e)
    | .ok g => .ok { s with given := g, pending := none }

def fail (e : UsageError) : Except Stop Scan := .error (.error e)

def file (s : Scan) (arg : String) : Except Stop Scan := do
  if s.hasFile then fail (.unexpected arg)
  else return { ← s.settle with pending := some (.file, some arg), hasFile := true }

-- Stops for a notice. A fault of what is pending counts before.
def notice (s : Scan) (n : Notice) : Except Stop Scan := do
  let _ ← s.settle
  .error (.notice n)

-- An argument that starts with two dashes, by the name behind them and the value behind `=`.
def long (s : Scan) (name : String) (value : Option String) : Except Stop Scan :=
  match Argument.ofName? name, value with
  | some (.param p), none => do return { ← s.settle with pending := some (p, none) }
  | some (.param p), some v => do
    let s ← s.settle
    { s with pending := some (p, some v) }.settle
  | some (.switch w), none => do
    let s ← s.settle
    match s.given.acceptSwitch w with
    | .error e => fail e
    | .ok g => return { s with given := g }
  | some (.notice n), none => s.notice n
  | some a, some v => fail (.unneededValue v a)
  | none, _ => fail (.unexpected ("--" ++ name))

-- An argument that starts with one dash, by the letter behind it.
def short (s : Scan) (letter : Char) : Except Stop Scan :=
  match Notice.ofLetter? letter with
  | some n => s.notice n
  | none => fail (.unexpected ("-" ++ letter.toString))

-- An argument without dashes in front: the value of a pending option that has none, or a file.
def plain (s : Scan) (arg : String) : Except Stop Scan :=
  match s.pending with
  | some (p, none) => .ok { s with pending := some (p, some arg) }
  | _ => s.file arg

def next (s : Scan) (arg : String) : Except Stop Scan :=
  if s.filesOnly then s.file arg
  else
    match arg.toList with
    | ['-', '-'] => .ok { s with filesOnly := true }
    | '-' :: '-' :: cs =>
      s.long (String.ofList (cs.takeWhile (· ≠ '=')))
        (if '=' ∈ cs then some (String.ofList (cs.dropWhile (· ≠ '=')).tail) else none)
    | '-' :: c :: _ => s.short c
    | _ => s.plain arg

def all (s : Scan) : List String → Except Stop Scan
  | [] => s.settle
  | a :: as => do (← s.next a).all as

end Scan

structure Options where
  file : String
  root : String
  dialect : Dialect
  maxSteps : Nat
  all : Bool
  asm : Bool
  save : Bool
  shown : Section → Bool

def Given.options (g : Given) : Options where
  file := g.file.getD "program.txt"
  root := g.root.getD "."
  dialect := g.dialect.getD .full
  maxSteps := g.maxSteps.getD StepLimit.default
  all := .all ∈ g.switches
  asm := .asm ∈ g.switches
  save := .noSave ∉ g.switches
  shown p := .reveal p ∈ g.switches || .hide p ∉ g.switches

-- The options that arguments stand for.
def Options.ofArguments (args : List String) : Except Stop Options := do
  return (← Scan.all {} args).given.options

end CommandLine

end Imp
