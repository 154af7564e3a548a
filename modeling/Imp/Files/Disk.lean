import Imp.Files.Path
import Imp.Ordered

/-!
A disk: a tree of directories, files and symbolic links, and the operations on it.

Paths are resolved from the root or from the current directory. `..` leads to the directory above,
and links are followed, at most forty of them in one path. A name with a slash behind it is that of
a directory, so no file is written there. An operation that may fail after a first effect returns
the disk that it leaves behind.
-/

namespace Imp

inductive Node
  | file (content : ByteArray)
  | link (target : String)
  | dir (entries : List (String × Node))
deriving Inhabited

inductive FileError
  | notFound
  | alreadyExists
  | notDirectory
  | isDirectory
  | invalidName
  | nameTooLong
  | tooManyLinks
  | notText
  -- The path of a directory is too long for its entries to be listed.
  | unlisted (path : String)
deriving DecidableEq, Repr, Inhabited

namespace FileError

def tooLongText : String := "File name too long (os error 36)"

def message : FileError → String
  | notFound => "No such file or directory (os error 2)"
  | alreadyExists => "File exists (os error 17)"
  | notDirectory => "Not a directory (os error 20)"
  | isDirectory => "Is a directory (os error 21)"
  | invalidName => "file name contained an unexpected NUL byte"
  | nameTooLong => tooLongText
  | tooManyLinks => "Too many levels of symbolic links (os error 40)"
  | notText => "stream did not contain valid UTF-8"
  | unlisted path => "IO error for operation on " ++ path ++ ": " ++ tooLongText

-- The messages of an error and of what caused it.
def messages : FileError → List String
  | unlisted path => [(unlisted path).message, tooLongText]
  | e => [e.message]

end FileError

namespace Node

-- The node that a list of names leads to, without following links.
def get? : List String → Node → Option Node
  | [], node => some node
  | n :: ns, dir es => (es.lookup n).bind (get? ns)
  | _ :: _, _ => none

-- Puts a node where a list of names leads to.
def put (new : Node) : List String → Node → Node
  | [], _ => new
  | n :: ns, dir es => dir (Ordered.insert n (put new ns ((es.lookup n).getD (dir []))) es)
  | _ :: _, node => node

mutual

-- The files below a node, by the names that lead to them, in the order of the entries.
def files : Node → List (List String × ByteArray)
  | file content => [([], content)]
  | link _ => []
  | dir es => filesOf es

def filesOf : List (String × Node) → List (List String × ByteArray)
  | [] => []
  | (n, node) :: es => node.files.map (fun (ns, content) => (n :: ns, content)) ++ filesOf es

end

mutual

-- The directories at and below a node, in the order of the entries, each before what is in it.
def dirs : Node → List (List String)
  | dir es => [] :: dirsOf es
  | _ => []

def dirsOf : List (String × Node) → List (List String)
  | [] => []
  | (n, node) :: es => node.dirs.map (n :: ·) ++ dirsOf es

end

end Node

structure Disk where
  root : Node
  -- The names that lead to the current directory.
  current : List String
deriving Inhabited

namespace Disk

-- Where a path leads: the names of the place, and the node there if there is one.
structure Place where
  names : List String
  node : Option Node
deriving Inhabited

-- The directories that a path has led into, the innermost first, each under its name.
abbrev Trail := List (String × Node)

namespace Trail

def names (t : Trail) : List String :=
  (t.map (·.1)).reverse

-- The node at the end of a trail from a root.
def node (root : Node) : Trail → Node
  | [] => root
  | (_, n) :: _ => n

-- The trail that goes on from another one by a list of names.
def extend? (root : Node) (t : Trail) : List String → Option Trail
  | [] => some t
  | n :: ns =>
    match t.node root with
    | .dir es => (es.lookup n).bind fun child => extend? root ((n, child) :: t) ns
    | _ => none

end Trail

-- A longer name is refused. It is counted in bytes.
def maxName : Nat := 255

-- A longer path is refused. It is counted in bytes.
def maxPath : Nat := 4095

def maxLinks : Nat := 40

-- What a path is resolved for.
inductive Aim
  -- To look at what is there.
  | look
  -- To make something where nothing is. A link at the very end is not followed.
  | make
  -- To write a file, there already or not. A slash behind its name makes it a directory's name.
  | write
deriving DecidableEq, Repr, Inhabited

-- Goes on from a directory through the parts of a path. Its end may come from a link, and then so
-- may the slash behind the last name.
def walk (root : Node) (aim : Aim) (links : Nat) (t : Trail) :
    List String → Except FileError Place
  | [] => .ok ⟨t.names, some (t.node root)⟩
  | p :: ps =>
    match t.node root with
    | .dir es =>
      if p = "" ∨ p = "." then walk root aim links t ps
      else if p = ".." then walk root aim links t.tail ps
      else if aim = .write ∧ Path.isOnlySlashes ps then .error .isDirectory
      else if maxName < p.utf8ByteSize then .error .nameTooLong
      else
        match es.lookup p with
        | none => if ps.isEmpty then .ok ⟨t.names ++ [p], none⟩ else .error .notFound
        | some (.link target) =>
          if ps.isEmpty && aim = .make then .ok ⟨t.names ++ [p], some (.link target)⟩
          else
            match links with
            | 0 => .error .tooManyLinks
            | links + 1 =>
              walk root aim links (if Path.isAbsolute target then [] else t)
                (Path.parts target ++ ps)
        | some child => walk root aim links ((p, child) :: t) ps
    | _ => .error .notDirectory
termination_by ps => (links, ps.length)

def resolve (d : Disk) (aim : Aim) (path : String) : Except FileError Place :=
  if '\x00' ∈ path.toList then .error .invalidName
  else if path.isEmpty then .error .notFound
  else if maxPath < path.utf8ByteSize then .error .nameTooLong
  else if Path.isAbsolute path then walk d.root aim maxLinks [] (Path.parts path)
  else
    match Trail.extend? d.root [] d.current with
    | none => .error .notFound
    | some t => walk d.root aim maxLinks t (Path.parts path)

def node? (d : Disk) (path : String) : Option Node :=
  match d.resolve .look path with
  | .ok p => p.node
  | .error _ => none

def isFile (d : Disk) (path : String) : Bool :=
  match d.node? path with
  | some (.file _) => true
  | _ => false

def isDir (d : Disk) (path : String) : Bool :=
  match d.node? path with
  | some (.dir _) => true
  | _ => false

def readText (d : Disk) (path : String) : Except FileError String := do
  match (← d.resolve .look path).node with
  | some (.file content) =>
    match String.fromUTF8? content with
    | some text => .ok text
    | none => .error .notText
  | some _ => .error .isDirectory
  | none => .error .notFound

def put (d : Disk) (names : List String) (node : Node) : Disk :=
  { d with root := Node.put node names d.root }

-- Makes a directory where nothing is.
def makeDir (d : Disk) (path : String) : Except FileError Disk := do
  let p ← d.resolve .make path
  match p.node with
  | some _ => .error .alreadyExists
  | none => .ok (d.put p.names (.dir []))

-- Makes a link where nothing is.
def makeLink (d : Disk) (path target : String) : Except FileError Disk := do
  let p ← d.resolve .make path
  match p.node with
  | some _ => .error .alreadyExists
  | none => .ok (d.put p.names (.link target))

-- Writes a file, in place of its content if there is one.
def write (d : Disk) (path : String) (content : ByteArray) : Except FileError Disk := do
  let p ← d.resolve .write path
  match p.node with
  | some (.dir _) => .error .isDirectory
  | _ => .ok (d.put p.names (.file content))

-- Makes a directory, the first path, unless it is there already. If what it stands in is missing,
-- this is made before, by the further paths.
def makeDirs (d : Disk) : List String → Disk × Except FileError Unit
  | [] => (d, .ok ())
  | path :: above =>
    match d.makeDir path with
    | .ok d => (d, .ok ())
    | .error .notFound =>
      match d.makeDirs above with
      | (d, .error e) => (d, .error e)
      | (d, .ok ()) =>
        match d.makeDir path with
        | .ok d => (d, .ok ())
        | .error e => (d, if d.isDir path then .ok () else .error e)
    | .error e => (d, if d.isDir path then .ok () else .error e)

-- Makes the directories above a path.
def makeParents (d : Disk) (path : String) : Disk × Except FileError Unit :=
  d.makeDirs (Path.ancestors path).tail

end Disk

end Imp
