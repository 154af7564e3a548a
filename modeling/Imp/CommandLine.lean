import Imp.CommandLine.Notice
import Imp.CommandLine.Options
import Imp.CommandLine.Report
import Imp.Program.Json
import Imp.Python
import Imp.Wat.Compile
import Imp.Workspace

/-!
The command line: sources of a workspace are run and compiled, and what comes of it is printed and
saved.

A source goes through all stages before anything of it is saved. The first failure ends the whole
call; what was printed and saved before stays.
-/

namespace Imp

namespace CommandLine

-- All that is made of one source.
structure Build where
  program : Program
  trace : Trace
  python : String
  wat : String
  assembly : Option String
deriving Inhabited

namespace Build

-- The artifacts to be saved, in this order, each with its name in messages and its contents.
def artifacts (b : Build) : List (Artifact × String × String) :=
  [(.program, "AST", b.program.json.pretty), (.trace, "Trace", b.trace.json.pretty),
    (.python, "Python", b.python), (.wat, "WAT", b.wat)]
  ++ (b.assembly.map fun text => (Artifact.assembly, "Assembly", text)).toList

end Build

namespace Options

-- A section of the output with its heading, if it is shown.
def printSection (o : Options) (part : Section) (ls : List String) : Printed Unit :=
  if o.shown part then .ofText (lines ls) else .ofText ""

-- The entries of a run, and its final environment if it has one.
def printRun (r : Run) : Printed Unit := do
  .ofText (lines (["", "EXEC TRACE:", ""] ++ r.trace.map Entry.line))
  let env ← .ofResult r.outcome.result
  .ofText (lines ["", "FINAL RESULT: " ++ env.json.compact])

def printAssembly (o : Options) (p : Program) : Printed (Option String) :=
  if o.asm then do
    let text ← .ofResult (p.asmText.mapError .unsupported)
    .ofText (lines ["", "ASSEMBLY:", text])
    return some text
  else return none

-- Takes a source through all stages. Nothing is written.
def build (o : Options) (w : Workspace) (d : Disk) (name : String) : Printed Build := do
  let text ← .ofResult (w.readSource d name)
  let source ← .ofResult ((o.dialect.read text).mapError .source)
  let p := source.program
  o.printSection .tokens ("TOKENS:" :: source.tokens.map Token.line)
  o.printSection .program ["AST:", p.json.pretty]
  let run := p.run o.maxSteps
  printRun run
  let python := p.pythonText Python.defaultIndent
  o.printSection .python ["", "PYTHON:", python]
  let wat ← .ofResult ((p.watText {}).mapError .undeclared)
  o.printSection .wat ["", "WAT:", wat]
  let assembly ← o.printAssembly p
  return ⟨p, run.trace, python, wat, assembly⟩

end Options

-- Tells where an artifact was saved and goes on, unless it cannot be written.
def savedThen (title : String) (next : Disk → Disk × Printed Unit) :
    Disk × Except Error String → Disk × Printed Unit
  | (d, .error e) => (d, .ofResult (.error e))
  | (d, .ok path) =>
    let (d, p) := next d
    (d, do .ofText (lines [title ++ " saved to: " ++ path]); p)

-- Saves the artifacts of a source one after the other, up to the first that cannot be written.
def saveAll (w : Workspace) (name : String) (d : Disk) :
    List (Artifact × String × String) → Disk × Printed Unit
  | [] => (d, pure ())
  | (a, title, contents) :: rest =>
    savedThen title (fun d => saveAll w name d rest) (w.save d a name contents)

-- Builds one source, and saves its artifacts if that is wanted and all stages succeed.
def process (o : Options) (w : Workspace) (d : Disk) (name : String) : Disk × Printed Unit :=
  let built := o.build w d name
  match built.result with
  | .error e => (d, ⟨built.text, .error e⟩)
  | .ok b =>
    let (d, p) := saveAll w name d (if o.save then b.artifacts else [])
    (d, ⟨built.text ++ p.text, p.result⟩)

-- What a call leaves behind.
structure Answer where
  exit : Nat
  stdout : String
  stderr : String
  disk : Disk
deriving Inhabited

-- Goes on after a source, unless it failed.
def processedThen (headed : Bool) (name : String) (next : Disk → Answer) :
    Disk × Printed Unit → Answer
  | (d, p) =>
    let text := (if headed then lines ["==> " ++ name] else "") ++ p.text
    match p.result with
    | .error e => ⟨1, text, failureReport ("failed to process " ++ name) e, d⟩
    | .ok () =>
      let rest := next d
      { rest with stdout := text ++ rest.stdout }

-- Processes sources up to the first that fails.
def processAll (o : Options) (w : Workspace) (headed : Bool) (d : Disk) : List String → Answer
  | [] => ⟨0, "", "", d⟩
  | name :: names =>
    processedThen headed name (fun d => processAll o w headed d names) (process o w d name)

def execute (o : Options) (d : Disk) : Answer :=
  let w : Workspace := ⟨o.root⟩
  match if o.all then w.sources d else .ok [o.file] with
  | .error e => ⟨1, "", failureReport "failed to list source files" e, d⟩
  | .ok [] => ⟨0, "", lines ["no source files found in " ++ w.origin], d⟩
  | .ok names => processAll o w (1 < names.length) d names

-- Answers a call with these arguments. A call that is not understood is only reported.
def run (args : List String) (d : Disk) : Answer :=
  match Options.ofArguments args with
  | .error (.error e) => ⟨2, "", e.report, d⟩
  | .error (.notice n) => ⟨0, n.text, "", d⟩
  | .ok o => execute o d

end CommandLine

end Imp
