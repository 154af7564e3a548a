/-!
What can stand on the command line: a file, parameters with a value, switches, and requests for a
notice.
-/

namespace Imp

namespace CommandLine

-- The four parts of the output that can be chosen.
inductive Section
  | tokens | program | python | wat
deriving DecidableEq, Repr, Inhabited

inductive Switch
  | all | asm | noSave
  | reveal (part : Section)
  | hide (part : Section)
deriving DecidableEq, Repr, Inhabited

inductive Param
  | file | root | dialect | maxSteps
deriving DecidableEq, Repr, Inhabited

-- A text that is printed instead of anything else.
inductive Notice
  | help | version
deriving DecidableEq, Repr, Inhabited

inductive Argument
  | param (p : Param)
  | switch (s : Switch)
  | notice (n : Notice)
deriving DecidableEq, Repr, Inhabited

def Section.name : Section → String
  | tokens => "tokens"
  | program => "ast"
  | python => "python"
  | wat => "wat"

def Section.all : List Section := [tokens, program, python, wat]

def Switch.name : Switch → String
  | all => "all"
  | asm => "asm"
  | noSave => "no-save"
  | reveal p => p.name
  | hide p => "no-" ++ p.name

def Switch.known : List Switch :=
  [all, asm, noSave] ++ Section.all.map .reveal ++ Section.all.map .hide

-- The switch that is forgotten when this one is given.
def Switch.opposite? : Switch → Option Switch
  | reveal p => some (hide p)
  | hide p => some (reveal p)
  | _ => none

def Param.name : Param → String
  | file => "file"
  | root => "root"
  | dialect => "dialect"
  | maxSteps => "max-steps"

namespace Notice

def name : Notice → String
  | help => "help"
  | version => "version"

def letter : Notice → Char
  | help => 'h'
  | version => 'V'

def all : List Notice := [help, version]

def ofLetter? (c : Char) : Option Notice :=
  all.find? (·.letter = c)

end Notice

namespace Argument

-- The arguments that start with two dashes.
def named : List Argument :=
  [Param.root, .dialect, .maxSteps].map param ++ Switch.known.map switch ++ Notice.all.map notice

-- What stands behind the dashes.
def name : Argument → String
  | param p => p.name
  | switch s => s.name
  | notice n => n.name

def ofName? (name : String) : Option Argument :=
  named.find? (·.name = name)

-- How an argument is named in messages.
def usage : Argument → String
  | param .file => "[FILE]"
  | param .root => "--root <DIR>"
  | param .dialect => "--dialect <DIALECT>"
  | param .maxSteps => "--max-steps <N>"
  | switch s => "--" ++ s.name
  | notice n => "--" ++ n.name

end Argument

end CommandLine

end Imp
