import Imp.Proofs.Artifacts
import Imp.Proofs.CommandLine.Stages

/-!
A source that comes through all stages is saved, if nothing is in the way of its artifacts.
-/

namespace Imp

open Disk

namespace Workspace

variable {w : Workspace} {d : Disk} {place : List String} {a b : Artifact} {name path n : String}
  {es : List (String × Node)}

-- A directory in the root is found.
theorem RootAt.isDir (h : w.RootAt d place) (hn : IsName n) (hpath : Admissible path)
    (hparts : Path.parts path = Path.base w.root ++ [n])
    (hdir : d.root.get? (place ++ [n]) = some (.dir es)) : d.isDir path = true := by
  obtain ⟨links, t, ht, rfl, heq⟩ := h.exists_walk hparts hn.ne_empty hpath
  obtain ⟨fs, hfs⟩ := Node.exists_dir_of_get?_cons hdir
  have hfs := ht.node_eq hfs
  have hchild : fs.lookup n = some (.dir es) := ht.get?_entry hfs n ▸ hdir
  have hresolve : d.resolve .look path = .ok ⟨t.names ++ [n], some (.dir es)⟩ := by
    rw [heq]
    calc
      _ = walk d.root .look links ((n, .dir es) :: t) [] := walk_enter hn hfs hchild nofun nofun
      _ = _ := by rw [walk, Trail.names_cons]; rfl
  simp only [Disk.isDir, Disk.node?, hresolve]

-- In a directory in the root a file can be written.
theorem RootAt.resolve_write {m : String} (h : w.RootAt d place) (hn : IsName n) (hm : IsName m)
    (hpath : Admissible path) (hparts : Path.parts path = Path.base w.root ++ n :: [m])
    (hdir : d.root.get? (place ++ [n]) = some (.dir es))
    (hentry : ∀ node, es.lookup m = some node → node.IsFile) :
    d.resolve .write path = .ok ⟨place ++ [n, m], es.lookup m⟩ := by
  obtain ⟨links, t, ht, rfl, heq⟩ := h.exists_walk hparts hn.ne_empty hpath
  obtain ⟨fs, hfs⟩ := Node.exists_dir_of_get?_cons hdir
  have hfs := ht.node_eq hfs
  have hdir : fs.lookup n = some (.dir es) := ht.get?_entry hfs n ▸ hdir
  have hslashes : ¬Path.isOnlySlashes [m] := by simp [Path.isOnlySlashes, hm.ne_empty]
  have hnone : ¬Path.isOnlySlashes [] := by decide
  rw [heq, walk_enter hn hfs hdir (by simp) fun _ => hslashes]
  cases hchild : es.lookup m with
  | none =>
    refine (walk_absent hm rfl hchild fun _ => hnone).trans ?_
    rw [Trail.names_cons, List.append_assoc]
    rfl
  | some child =>
    obtain ⟨content, rfl⟩ := hentry child hchild
    refine (walk_enter hm rfl hchild (by simp) fun _ => hnone).trans ?_
    rw [walk, Trail.names_cons, Trail.names_cons, List.append_assoc]
    rfl

theorem parts_artifactName (a : Artifact) (h : '/' ∉ name.toList) :
    Path.parts (artifactName a name) = [artifactName a name] := by
  obtain ⟨above, file, hname, hstem⟩ := exists_parts_stem name
  have hparts := hstem _ a.slash_not_mem_suffix
  obtain rfl : above = [] := by
    have hlength := congrArg List.length ((Path.parts_of_not_mem h).symm.trans hname)
    simpa using hlength
  rw [List.nil_append] at hparts
  have hslash := Path.slash_not_mem_parts (hparts ▸ List.mem_cons_self)
  have heq := Path.parts_injective (hparts.trans (Path.parts_of_not_mem hslash).symm)
  rw [artifactName, heq]
  exact Path.parts_of_not_mem hslash

-- An artifact of another kind stands elsewhere.
theorem get?_put_artifact (hne : a ≠ b) (new : Node) :
    (d.put (place ++ [b.bucket, artifactName b name]) new).root.get?
        (place ++ [a.bucket, artifactName a name]) =
      d.root.get? (place ++ [a.bucket, artifactName a name]) := by
  have hdiffer : ¬(a.bucket = b.bucket ∧ artifactName a name = artifactName b name) := fun h =>
    hne (Artifact.suffix_inj h.1 h.2).1
  refine Node.get?_put_elsewhere ?_ ?_ <;>
    simpa [List.prefix_append_right_inj, List.cons_prefix_cons, eq_comm] using hdiffer

-- Nothing is in the way of the artifacts of a source that stands in the origin itself.
structure Clear (w : Workspace) (d : Disk) (place : List String) (name : String) : Prop extends
    w.RootAt d place where
  no_slash : '/' ∉ name.toList
  admissible : ∀ a, Admissible (w.artifactPath a name)
  short : ∀ a, (artifactName a name).utf8ByteSize ≤ maxName
  bucket : ∀ (a : Artifact) node, d.root.get? (place ++ [a.bucket]) = some node →
    ∃ es, node = .dir es
  entry : ∀ (a : Artifact) node,
    d.root.get? (place ++ [a.bucket, artifactName a name]) = some node → node.IsFile

namespace Clear

variable (h : w.Clear d place name)

include h

theorem isName (a : Artifact) : IsName (artifactName a name) where
  ne_empty := a.ne_of_dots (.inl rfl)
  ne_here := a.ne_of_dots (.inr (.inl rfl))
  ne_above := a.ne_of_dots (.inr (.inr rfl))
  short := h.short a

theorem parts_artifactPath (a : Artifact) : Path.parts (w.artifactPath a name) =
    Path.base w.root ++ a.bucket :: [artifactName a name] := by
  have hparts := parts_artifactName a h.no_slash
  have hslash := Path.slash_not_mem_parts (hparts ▸ List.mem_cons_self)
  rw [artifactPath_eq, Path.parts_join (Path.isAbsolute_of_not_mem hslash), hparts,
    Path.base_join a.isName_bucket.ne_empty a.slash_not_mem_bucket, List.append_assoc]
  rfl

theorem admissible_bucket (a : Artifact) : Admissible (Path.join w.root a.bucket) := by
  have hslash := Path.slash_not_mem_parts (parts_artifactName a h.no_slash ▸ List.mem_cons_self)
  have ⟨hnul, hshort⟩ := h.admissible a
  rw [artifactPath_eq, Path.join_eq (Path.isAbsolute_of_not_mem hslash),
    Path.front_join a.isName_bucket.ne_empty a.slash_not_mem_bucket] at hnul hshort
  rw [Path.join_eq (Path.isAbsolute_of_not_mem a.slash_not_mem_bucket)]
  constructor
  case no_nul => simp_all
  case short =>
    simp only [String.utf8ByteSize_append] at hshort ⊢
    omega

theorem ancestors_artifactPath (a : Artifact) : (Path.ancestors (w.artifactPath a name)).tail =
    Path.join w.root a.bucket :: Path.ancestorsOf (Path.base w.root).reverse := by
  have hbucket : "/".intercalate (Path.base w.root ++ [a.bucket]) = Path.join w.root a.bucket := by
    rw [← w.parts_join_root a.slash_not_mem_bucket]
    exact Path.ofNames_parts _
  have hn := a.isName_bucket
  have hm := h.isName a
  rw [Path.ancestors, h.parts_artifactPath a]
  simp [Path.ancestorsOf, hn.ne_empty, hn.ne_here, hm.ne_empty, hm.ne_here, hbucket]

-- The bucket is there or is made.
theorem exists_made (a : Artifact) : ∃ d' es,
    d.makeParents (w.artifactPath a name) = (d', .ok ()) ∧ w.RootAt d' place ∧
    d'.root.get? (place ++ [a.bucket]) = some (.dir es) ∧
    (∀ node, es.lookup (artifactName a name) = some node → node.IsFile) ∧
    ∀ new, d'.put (place ++ [a.bucket, artifactName a name]) new =
      d.put (place ++ [a.bucket, artifactName a name]) new := by
  have hroot := h.toRootAt
  have hpath := h.admissible_bucket a
  have hparts := w.parts_join_root a.slash_not_mem_bucket
  have hresolve := hroot.resolve_make a.isName_bucket hparts hpath
  rw [makeParents, h.ancestors_artifactPath, makeDirs, makeDir, hresolve]
  cases hbucket : d.root.get? (place ++ [a.bucket]) with
  | none =>
    have hkept : Kept place d (d.put (place ++ [a.bucket]) (.dir [])) :=
      .put List.prefix_rfl (by simp [hbucket]) Node.linkless_dir_nil
    obtain ⟨es, hes⟩ := h.dir
    refine ⟨_, [], rfl, hroot.kept hkept, ?_, by simp, fun new => ?_⟩
    case refine_1 => simp [Disk.put, Node.get?_put_below hes, Node.put, Ordered.lookup_insert_self]
    case refine_2 =>
      simp only [Disk.put]
      rw [List.append_cons, Node.put_put_dir hbucket]
  | some node =>
    obtain ⟨es, rfl⟩ := h.bucket a node hbucket
    have hdir := hroot.isDir a.isName_bucket hpath hparts hbucket
    refine ⟨d, es, by simp [bind, Except.bind, hdir], hroot, hbucket, fun node hnode => ?_,
      fun _ => rfl⟩
    refine h.entry a node ?_
    rw [List.append_cons, Node.get?_append, hbucket]
    simpa using hnode

-- An artifact is saved in its bucket, and there is nothing else that changes.
theorem save_eq (a : Artifact) (contents : String) : w.save d a name contents =
    (d.put (place ++ [a.bucket, artifactName a name]) (.file contents.toUTF8),
      .ok (w.artifactPath a name)) := by
  obtain ⟨d', es, hmade, hroot, hdir, hentry, hput⟩ := h.exists_made a
  have hresolve := hroot.resolve_write a.isName_bucket (h.isName a) (h.admissible a)
    (h.parts_artifactPath a) hdir hentry
  have hwrite : d'.write (w.artifactPath a name) contents.toUTF8 =
      .ok (d.put (place ++ [a.bucket, artifactName a name]) (.file contents.toUTF8)) := by
    simp only [write, hresolve, bind, Except.bind]
    split
    case h_1 fs hfs =>
      obtain ⟨content, hfile⟩ := hentry _ hfs
      cases hfile
    case h_2 => rw [hput]
  unfold Workspace.save
  dsimp only
  rw [hmade]
  dsimp only
  rw [hwrite]

-- What an artifact is put into is a directory, which is made if it is not there.
theorem exists_bucket (a : Artifact) (hes : d.root.get? place = some (.dir es)) :
    ∃ fs, (es.lookup a.bucket).getD (.dir []) = .dir fs := by
  cases hbucket : es.lookup a.bucket with
  | none => exact ⟨[], rfl⟩
  | some node => exact h.bucket a node (by simp [Node.get?_append, hes, hbucket])

theorem get?_put (a : Artifact) (new : Node) :
    (d.put (place ++ [a.bucket, artifactName a name]) new).root.get?
      (place ++ [a.bucket, artifactName a name]) = some new := by
  obtain ⟨es, hes⟩ := h.dir
  obtain ⟨fs, hfs⟩ := h.exists_bucket a hes
  rw [Disk.put, Node.get?_put_below hes]
  simp [Node.put, hfs, Node.get?, Ordered.lookup_insert_self]

theorem put (a : Artifact) (content : ByteArray) :
    w.Clear (d.put (place ++ [a.bucket, artifactName a name]) (.file content)) place name where
  toRootAt := h.toRootAt.kept (.put (a := a) (by simp) (h.entry a) (Node.linkless_file content))
  no_slash := h.no_slash
  admissible := h.admissible
  short := h.short
  bucket b node hnode := by
    obtain ⟨es, hes⟩ := h.dir
    obtain ⟨fs, hfs⟩ := h.exists_bucket a hes
    rw [Disk.put, Node.get?_put_below hes] at hnode
    simp only [Node.put, hfs, Node.get?_dir_singleton] at hnode
    by_cases hb : b.bucket = a.bucket
    case pos =>
      rw [hb, Ordered.lookup_insert_self] at hnode
      exact ⟨_, (Option.some.inj hnode).symm⟩
    case neg =>
      rw [Ordered.lookup_insert_of_ne hb] at hnode
      exact h.bucket b node (by simp [Node.get?_append, hes, hnode])
  entry b node hnode := by
    by_cases hb : b = a
    case pos =>
      rw [hb, h.get?_put] at hnode
      exact ⟨content, (Option.some.inj hnode).symm⟩
    case neg =>
      rw [get?_put_artifact hb] at hnode
      exact h.entry b node hnode

end Clear

end Workspace

namespace CommandLine

open Workspace

variable {o : Options} {w : Workspace} {d : Disk} {place : List String} {name : String}

-- The disk with the artifacts of a source saved.
def saved (place : List String) (name : String) (d : Disk)
    (artifacts : List (Artifact × String × String)) : Disk :=
  artifacts.foldl (fun d (a, _, contents) =>
    d.put (place ++ [a.bucket, artifactName a name]) (.file contents.toUTF8)) d

theorem saved_cons (d : Disk) (a : Artifact) (title contents : String)
    (artifacts : List (Artifact × String × String)) :
    saved place name d ((a, title, contents) :: artifacts) = saved place name
      (d.put (place ++ [a.bucket, artifactName a name]) (.file contents.toUTF8)) artifacts :=
  rfl

theorem get?_saved_of_not_mem {a : Artifact} {artifacts : List (Artifact × String × String)}
    (ha : a ∉ artifacts.map (·.1)) :
    (saved place name d artifacts).root.get? (place ++ [a.bucket, artifactName a name]) =
      d.root.get? (place ++ [a.bucket, artifactName a name]) := by
  induction artifacts generalizing d with
  | nil => rfl
  | cons artifact artifacts ih =>
    rw [List.map_cons, List.mem_cons, not_or] at ha
    obtain ⟨b, title, contents⟩ := artifact
    rw [saved_cons, ih ha.2, get?_put_artifact ha.1]

-- All artifacts are where they belong, with their contents.
theorem get?_saved {a : Artifact} {title contents : String}
    {artifacts : List (Artifact × String × String)} (h : w.Clear d place name)
    (hkinds : (artifacts.map (·.1)).Nodup) (ha : (a, title, contents) ∈ artifacts) :
    (saved place name d artifacts).root.get? (place ++ [a.bucket, artifactName a name]) =
      some (.file contents.toUTF8) := by
  induction artifacts generalizing d with
  | nil => nomatch ha
  | cons artifact artifacts ih =>
    obtain ⟨b, title', contents'⟩ := artifact
    have ⟨hb, hkinds⟩ := List.nodup_cons.mp hkinds
    rw [saved_cons]
    cases ha with
    | head => rw [get?_saved_of_not_mem hb, h.get?_put]
    | tail _ ha => exact ih (h.put b contents'.toUTF8) hkinds ha

theorem Build.nodup_kinds (b : Build) : (b.artifacts.map (·.1)).Nodup := by
  obtain ⟨p, trace, python, wat, _ | assembly⟩ := b <;> simp [artifacts]

theorem get?_saved_python {b : Build} (h : w.Clear d place name) :
    (saved place name d b.artifacts).root.get?
        (place ++ [Artifact.python.bucket, artifactName .python name]) =
      some (.file b.python.toUTF8) := by
  have hpython : (Artifact.python, "Python", b.python) ∈ b.artifacts := by simp [Build.artifacts]
  exact get?_saved h b.nodup_kinds hpython

theorem saveAll_eq (h : w.Clear d place name) (artifacts : List (Artifact × String × String)) :
    (saveAll w name d artifacts).2.result = .ok () ∧
      (saveAll w name d artifacts).1 = saved place name d artifacts := by
  induction artifacts generalizing d with
  | nil => exact ⟨rfl, rfl⟩
  | cons artifact artifacts ih =>
    obtain ⟨a, title, contents⟩ := artifact
    have ⟨hresult, hdisk⟩ := ih (h.put a contents.toUTF8)
    rw [saveAll, h.save_eq]
    refine ⟨?_, hdisk⟩
    rw [savedThen, Printed.result_bind, Printed.result_ofText]
    exact hresult

-- A source whose stages all succeed is built.
theorem result_build {text : String} {p : Program} {env : Env} {wat : String}
    (hread : w.readSource d name = .ok text) (hparse : o.dialect.parse text = .ok p)
    (hrun : (p.run o.maxSteps).outcome.result = .ok env) (hwat : p.watText {} = .ok wat)
    {assembly : Option String} (hasm : (o.printAssembly p).result = .ok assembly) :
    (o.build w d name).result = .ok
      ⟨p, (p.run o.maxSteps).trace, p.pythonText Python.defaultIndent, wat, assembly⟩ := by
  obtain ⟨source, hsource, rfl⟩ := map_eq_ok.mp hparse
  exact Options.build_eq_ok_iff.mpr
    ⟨text, hread, source, hsource, ⟨env, hrun⟩, wat, hwat, assembly, hasm, rfl⟩

-- A source that is built is saved, if nothing is in the way.
theorem process_eq {b : Build} (hclear : w.Clear d place name) (hsave : o.save = true)
    (h : (o.build w d name).result = .ok b) :
    (process o w d name).2.result = .ok () ∧
      (process o w d name).1 = saved place name d b.artifacts := by
  unfold process
  dsimp only
  rw [h]
  dsimp only
  rw [if_pos hsave]
  exact saveAll_eq hclear b.artifacts

end CommandLine

end Imp
