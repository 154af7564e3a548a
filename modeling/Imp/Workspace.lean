import Imp.Error

/-!
The layout of a directory with sources and artifacts.

Sources stand in `origin`. An artifact stands in the bucket of its kind, under the name of its
source with the last extension replaced.
-/

namespace Imp

inductive Artifact
  | program | trace | python | wat | assembly
deriving DecidableEq, Repr, Inhabited

namespace Artifact

def all : List Artifact := [program, trace, python, wat, assembly]

def bucket : Artifact → String
  | program => "ast"
  | trace => "trace"
  | python | wat | assembly => "dist"

def extension : Artifact → String
  | program => "json"
  | trace => "trace.json"
  | python => "py"
  | wat => "wat"
  | assembly => "asm"

end Artifact

-- What stands before the last dot of a file name; a dot in front does not count.
def stemOfFile (cs : List Char) : List Char :=
  match (cs.reverse.dropWhile (· ≠ '.')).tail.reverse with
  | [] => cs
  | stem => stem

-- A source name without the last extension of its file name.
def stem (name : String) : String :=
  let cs := name.toList
  let file := (cs.reverse.takeWhile (· ≠ '/')).reverse
  String.ofList (cs.take (cs.length - file.length) ++ stemOfFile file)

structure Workspace where
  root : String
deriving DecidableEq, Repr, Inhabited

namespace Workspace

def origin (w : Workspace) : String :=
  Path.join w.root "origin"

def readSource (w : Workspace) (d : Disk) (name : String) : Except Error String :=
  let path := Path.join w.origin name
  if d.isFile path then (d.readText path).mapError .files else .error (.sourceNotFound path)

-- The name that a list of names is listed under.
def sourceName (ns : List String) : String :=
  String.ofList ((Path.ofNames ns).toList.map fun c => if c = '\\' then '/' else c)

-- The paths of the directories below the origin, given its entries.
def dirPaths (w : Workspace) (es : List (String × Node)) : List String :=
  (Node.dirsOf es).map fun ns => Path.join w.origin (Path.ofNames ns)

-- The names of all files below the origin; links in it are not followed. All directories are listed
-- for this, so none of their paths may be too long.
def sources (w : Workspace) (d : Disk) : Except Error (List String) :=
  match d.node? w.origin with
  | some (.dir es) =>
    match (w.dirPaths es).find? (Disk.maxPath < ·.utf8ByteSize) with
    | some path => .error (.files (.unlisted path))
    | none => .ok ((Node.filesOf es).map (sourceName ·.1))
  | _ => .error (.sourceNotFound w.origin)

def artifactPath (w : Workspace) (a : Artifact) (name : String) : String :=
  Path.join (Path.join w.root a.bucket) (stem name ++ "." ++ a.extension)

-- Writes an artifact and makes the directories above it; the path is returned.
def save (w : Workspace) (d : Disk) (a : Artifact) (name contents : String) :
    Disk × Except Error String :=
  let path := w.artifactPath a name
  match d.makeParents path with
  | (d, .error e) => (d, .error (.files e))
  | (d, .ok ()) =>
    match d.write path contents.toUTF8 with
    | .error e => (d, .error (.files e))
    | .ok d => (d, .ok path)

end Workspace

end Imp
