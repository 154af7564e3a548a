import Imp.CommandLine

/-!
The program itself: it reads the workspace into a disk, answers the call on it, and writes back the
files that have changed.
-/

namespace Imp

-- The names of the place that a path leads to from a place, links left aside.
def Path.placeFrom (here : List String) (path : String) : List String :=
  (Path.parts path).foldl
    (fun ns n => if n = "" ∨ n = "." then ns else if n = ".." then ns.dropLast else ns ++ [n])
    (if Path.isAbsolute path then [] else here)

-- Reads what stands at a place into a disk. A link is read together with what it leads to.
partial def Disk.load (d : Disk) (names : List String) : IO Disk := do
  let path := (← IO.currentDir) / ("/" ++ Path.ofNames names)
  match (← path.symlinkMetadata).type with
  | .dir =>
    let mut d := d.put names (.dir [])
    for e in ← path.readDir do
      d ← d.load (names ++ [e.fileName])
    return d
  | .file => return d.put names (.file (← IO.FS.readBinFile path))
  | .symlink =>
    let target := (← IO.FS.realPath path).toString
    let d := d.put names (.link target)
    if (d.root.get? (Path.names target)).isSome then return d else d.load (Path.names target)
  | .other => return d

-- Reads the parts of a workspace that exist.
def Workspace.load (w : Workspace) : IO Disk := do
  let here := Path.names (← IO.currentDir).toString
  let place := Path.placeFrom here w.root
  let mut d : Disk := ⟨.dir [], here⟩
  d := d.put here (.dir [])
  for bucket in "origin" :: Artifact.all.map Artifact.bucket do
    try
      d ← d.load (place ++ [bucket])
    catch _ => pure ()
  return d

-- Writes the files of a disk that differ from those of another one.
def Disk.store (old new : Disk) : IO Unit := do
  let before := old.root.files.map fun (names, content) => (names, content.toList)
  for (names, content) in new.root.files do
    unless before.lookup names = some content.toList do
      IO.FS.createDirAll ("/" ++ Path.ofNames names.dropLast)
      IO.FS.writeBinFile ("/" ++ Path.ofNames names) content

end Imp

def main (args : List String) : IO UInt32 := do
  let root := (Imp.CommandLine.Options.ofArguments args).toOption.elim "." (·.root)
  let d ← Imp.Workspace.load ⟨root⟩
  let a := Imp.CommandLine.run args d
  d.store a.disk
  IO.print a.stdout
  IO.eprint a.stderr
  return a.exit.toUInt32
