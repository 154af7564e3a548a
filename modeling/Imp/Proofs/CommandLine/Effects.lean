import Imp.Proofs.CommandLine.Saving
import Imp.Proofs.Readable

/-!
What a call of the command line changes on the disk.
-/

namespace Imp

namespace CommandLine

open Workspace

variable {o : Options} {w : Workspace} {d : Disk} {name : String} {names place : List String}
  {headed : Bool}

theorem process_kept (habs : Path.isAbsolute name = false) (hup : ".." ∉ Path.parts name)
    (h : w.Ready d place) : Kept place d (process o w d name).1 := by
  revert h
  refine process_induction (P := fun d d' => w.Ready d place → Kept place d d') ?_ ?_ ?_
  case refine_1 => exact fun d _ => .refl place d
  case refine_2 => exact fun hd hd' h => (hd h).trans (hd' (h.kept (hd h)))
  case refine_3 => exact fun d a contents h => h.save a contents habs hup

theorem processAll_kept (hnames : ∀ n ∈ names, Path.isAbsolute n = false ∧ ".." ∉ Path.parts n)
    (h : w.Ready d place) : Kept place d (processAll o w headed d names).disk := by
  revert h
  refine processAll_induction (P := fun d d' => w.Ready d place → Kept place d d') ?_ ?_ ?_
  case refine_1 => exact fun d _ => .refl place d
  case refine_2 => exact fun hd hd' h => (hd h).trans (hd' (h.kept (hd h)))
  case refine_3 => exact fun d n hn h => process_kept (hnames n hn).1 (hnames n hn).2 h

theorem processAll_disk_of_not_save (h : o.save = false) :
    (processAll o w headed d names).disk = d :=
  processAll_induction (P := fun d d' => d' = d) (fun _ => rfl) (fun hd hd' => hd'.trans hd)
    fun _ _ _ => process_disk_of_not_save h

-- A first source that cannot be read is the end.
theorem processAll_disk_of_unread {e : Error} (h : w.readSource d name = .error e) :
    (processAll o w headed d (name :: names)).disk = d := by
  have hfails : o.Fails w (processAll o w headed d []).disk name := .reading h
  exact (processAll_of_fails rfl hfails).2

theorem isName_origin : Disk.IsName "origin" :=
  ⟨by decide, by decide, by decide, by decide⟩

theorem apart_origin (place : List String) : Apart place (place ++ ["origin"]) := by
  intro a
  simp only [List.prefix_append_right_inj, List.cons_prefix_cons]
  cases a <;> simp [Artifact.bucket]

-- Nothing is changed, or the root is there and all in it is kept but the buckets.
theorem processAll_cases
    (hnames : ∀ n ∈ names, Path.isAbsolute n = false ∧ ".." ∉ Path.parts n)
    (hlinkless : ∀ (a : Artifact) node, d.nodeAt? (Path.join w.root a.bucket) = some node →
      node.Linkless) :
    (processAll o w headed d names).disk = d ∨
      ∃ name text place, Path.isAbsolute name = false ∧ w.readSource d name = .ok text ∧
        w.RootAt d place ∧ w.RootAt (processAll o w headed d names).disk place ∧
        Kept place d (processAll o w headed d names).disk := by
  cases names with
  | nil => exact .inl rfl
  | cons name names =>
    cases hread : w.readSource d name with
    | error e => exact .inl (processAll_disk_of_unread hread)
    | ok text =>
      have habs := (hnames name List.mem_cons_self).1
      obtain ⟨place, hroot⟩ := exists_rootAt habs hread
      have hready := hroot.ready habs hread hlinkless
      have hkept : Kept place d (processAll o w headed d (name :: names)).disk :=
        processAll_kept hnames hready
      exact .inr ⟨name, text, place, habs, hread, hroot, (hready.kept hkept).toRootAt, hkept⟩

namespace Options

-- The sources that are processed, from the first on.
def sources (o : Options) (d : Disk) : Except Error (List String) :=
  if o.all then Workspace.sources ⟨o.root⟩ d else .ok [o.file]

end Options

variable {args : List String}

theorem run_of_sources_error {e : Error} (ho : Options.ofArguments args = .ok o)
    (h : o.sources d = .error e) : (run args d).disk = d := by
  unfold Options.sources at h
  unfold run execute
  rw [ho]
  dsimp only
  rw [h]

theorem run_of_sources (ho : Options.ofArguments args = .ok o) (h : o.sources d = .ok names) :
    (run args d).exit = (processAll o ⟨o.root⟩ (1 < names.length) d names).exit ∧
      (run args d).disk = (processAll o ⟨o.root⟩ (1 < names.length) d names).disk := by
  unfold Options.sources at h
  unfold run execute
  rw [ho]
  dsimp only
  rw [h]
  cases names <;> exact ⟨rfl, rfl⟩

theorem run_disk_of_not_save (ho : Options.ofArguments args = .ok o) (h : o.save = false) :
    (run args d).disk = d := by
  cases hsources : o.sources d with
  | error e => exact run_of_sources_error ho hsources
  | ok names => rw [(run_of_sources ho hsources).2, processAll_disk_of_not_save h]

section WellFormed

variable (h : d.WellFormed)

include h

theorem process_wellFormed (o : Options) (w : Workspace) (name : String) :
    (process o w d name).1.WellFormed := by
  revert h
  refine process_induction (P := fun d d' => d.WellFormed → d'.WellFormed) ?_ ?_ ?_
  case refine_1 => exact fun _ h => h
  case refine_2 => exact fun hd hd' h => hd' (hd h)
  case refine_3 => exact fun _ a contents h => h.save w a name contents

theorem processAll_wellFormed (o : Options) (w : Workspace) (headed : Bool)
    (names : List String) : (processAll o w headed d names).disk.WellFormed := by
  revert h
  refine processAll_induction (P := fun d d' => d.WellFormed → d'.WellFormed) ?_ ?_ ?_
  case refine_1 => exact fun _ h => h
  case refine_2 => exact fun hd hd' h => hd' (hd h)
  case refine_3 => exact fun _ name _ h => process_wellFormed h o w name

-- Every call leaves a well-formed tree behind.
theorem run_wellFormed (args : List String) : (run args d).disk.WellFormed := by
  cases ho : Options.ofArguments args with
  | error e => cases e <;> simpa [run, ho] using h
  | ok o =>
    cases hsources : o.sources d with
    | error e => rwa [run_of_sources_error ho hsources]
    | ok names =>
      rw [(run_of_sources ho hsources).2]
      exact processAll_wellFormed h o _ _ names

end WellFormed

section

variable (ho : Options.ofArguments args = .ok o)
  (hnames : ∀ names, o.sources d = .ok names →
    ∀ n ∈ names, Path.isAbsolute n = false ∧ ".." ∉ Path.parts n)
  (hlinkless : ∀ (a : Artifact) node, d.nodeAt? (Path.join o.root a.bucket) = some node →
    node.Linkless)

include ho hnames hlinkless

theorem run_cases : (run args d).disk = d ∨
    ∃ name text place, Path.isAbsolute name = false ∧
      Workspace.readSource ⟨o.root⟩ d name = .ok text ∧ RootAt ⟨o.root⟩ d place ∧
      RootAt ⟨o.root⟩ (run args d).disk place ∧ Kept place d (run args d).disk := by
  cases hsources : o.sources d with
  | error e => exact .inl (run_of_sources_error ho hsources)
  | ok names =>
    rw [(run_of_sources ho hsources).2]
    exact processAll_cases (hnames names hsources) hlinkless

theorem run_nodeAt?_origin : (run args d).disk.nodeAt? (Workspace.origin ⟨o.root⟩) =
    d.nodeAt? (Workspace.origin ⟨o.root⟩) := by
  obtain hdisk | ⟨name, text, place, habs, hread, hroot, hroot', hkept⟩ :=
    run_cases ho hnames hlinkless
  case inl => rw [hdisk]
  case inr =>
    have hparts := parts_join_root ⟨o.root⟩ (n := "origin") (by decide)
    have hpath := admissible_join (n := "origin") habs hread (by decide) (by decide) (by decide)
    rw [origin, hroot'.nodeAt?_eq isName_origin hparts hpath,
      hroot.nodeAt?_eq isName_origin hparts hpath]
    exact hkept.apart _ (apart_origin place)

section Outside

variable {ns : List String} {path : String} {p : Disk.Place}

theorem run_outside (hns : Workspace.Outside ⟨o.root⟩ d ns) :
    (run args d).disk.root.get? ns = d.root.get? ns := by
  obtain hdisk | ⟨name, text, place, habs, hread, hroot, -, hkept⟩ :=
    run_cases ho hnames hlinkless
  case inl => rw [hdisk]
  case inr => exact hkept.apart ns ((hroot.outside_iff habs hread).mp hns)

theorem run_resolve_look (hp : d.resolve .look path = .ok p)
    (hns : Workspace.Outside ⟨o.root⟩ d p.names) :
    (run args d).disk.resolve .look path = .ok p := by
  obtain hdisk | ⟨name, text, place, habs, hread, hroot, -, hkept⟩ :=
    run_cases ho hnames hlinkless
  case inl => rw [hdisk, hp]
  case inr => exact hkept.resolve_look hp ((hroot.outside_iff habs hread).mp hns)

theorem run_node?_origin
    (horigin : ∀ p, d.resolve .look (Workspace.origin ⟨o.root⟩) = .ok p →
      Workspace.Outside ⟨o.root⟩ d p.names) :
    (run args d).disk.node? (Workspace.origin ⟨o.root⟩) =
      d.node? (Workspace.origin ⟨o.root⟩) := by
  obtain hdisk | ⟨name, text, place, habs, hread, -⟩ := run_cases ho hnames hlinkless
  case inl => rw [hdisk]
  case inr =>
    obtain ⟨p, hp⟩ := exists_resolve_origin habs hread
    rw [Disk.node?, Disk.node?, hp, run_resolve_look ho hnames hlinkless hp (horigin p hp)]

end Outside

end

-- A source is saved when all its stages have succeeded. If one of them fails, the call does, and
-- leaves the files as they were after the sources before. Without saving nothing changes. What is
-- not in the buckets never does: neither what stands there, nor what a path leads to; so the origin
-- stays as it is, unless it is a link into a bucket.
theorem run_all_or_nothing (ho : Options.ofArguments args = .ok o) (d : Disk) :
    (∀ names pre name post headed, o.sources d = .ok names → names = pre ++ name :: post →
      (processAll o ⟨o.root⟩ headed d pre).exit = 0 →
      o.Fails ⟨o.root⟩ (processAll o ⟨o.root⟩ headed d pre).disk name →
      (run args d).exit = 1 ∧ (run args d).disk = (processAll o ⟨o.root⟩ headed d pre).disk) ∧
    (o.save = false → (run args d).disk = d) ∧
    ((∀ names, o.sources d = .ok names →
        ∀ n ∈ names, Path.isAbsolute n = false ∧ ".." ∉ Path.parts n) →
      (∀ (a : Artifact) node, d.nodeAt? (Path.join o.root a.bucket) = some node → node.Linkless) →
      (run args d).disk.nodeAt? (Workspace.origin ⟨o.root⟩) =
        d.nodeAt? (Workspace.origin ⟨o.root⟩) ∧
      (∀ ns, Workspace.Outside ⟨o.root⟩ d ns → (run args d).disk.root.get? ns = d.root.get? ns) ∧
      (∀ path p, d.resolve .look path = .ok p → Workspace.Outside ⟨o.root⟩ d p.names →
        (run args d).disk.resolve .look path = .ok p) ∧
      ((∀ p, d.resolve .look (Workspace.origin ⟨o.root⟩) = .ok p →
          Workspace.Outside ⟨o.root⟩ d p.names) →
        (run args d).disk.node? (Workspace.origin ⟨o.root⟩) =
          d.node? (Workspace.origin ⟨o.root⟩))) := by
  refine ⟨?_, run_disk_of_not_save ho, fun hnames hlinkless => ⟨?_, fun ns => ?_, fun path p => ?_,
    ?_⟩⟩
  case refine_1 =>
    rintro _ pre name post headed hsources rfl hpre hfails
    have ⟨hexit, hdisk⟩ := run_of_sources ho hsources
    rw [hexit, hdisk]
    exact processAll_of_fails hpre hfails
  case refine_2 => exact run_nodeAt?_origin ho hnames hlinkless
  case refine_3 => exact run_outside ho hnames hlinkless
  case refine_4 => exact run_resolve_look ho hnames hlinkless
  case refine_5 => exact run_node?_origin ho hnames hlinkless

-- A disk with one file in a bucket. The current directory is the root of the disk.
def withBucket (n text : String) (origin : Node) : Disk :=
  ⟨.dir [("dist", .dir [(n, .file text.toUTF8)]), ("origin", origin)], []⟩

section WithBucket

variable {root origin : Node} {es fs : List (String × Node)} {n text : String}

theorem rootAt_here (h : root.get? [] = some (.dir es)) : RootAt ⟨"."⟩ ⟨root, []⟩ [] :=
  ⟨⟨_, .skip (.inr (by rfl)) h .done⟩, es, h⟩

theorem resolve_origin {links : Nat} (h : root.get? [] = some (.dir es))
    (hleads : Disk.Leads root Disk.maxLinks [] ["origin"] links place)
    (hplace : root.get? place = some (.dir fs)) :
    Disk.resolve ⟨root, []⟩ .look (Workspace.origin ⟨"."⟩) = .ok ⟨place, some (.dir fs)⟩ := by
  have hpath : Workspace.origin ⟨"."⟩ = "./origin" := by rfl
  have hparts : Path.parts "./origin" = ["."] ++ "origin" :: [] := by rfl
  have hleads : Disk.Leads root Disk.maxLinks (Disk.begin ⟨root, []⟩ ["."])
      (["."] ++ "origin" :: []) links place := .skip (.inr rfl) h hleads
  rw [hpath]
  exact Disk.Leads.resolve_look (d := ⟨root, []⟩) hleads ⟨by decide, by decide⟩ hparts (by decide)
    hplace

theorem wellFormed_withBucket (hn : Path.IsFileName n) (h : origin.WellFormed) :
    (withBucket n text origin).WellFormed := by
  have hlt : "dist" < "origin" := by decide
  refine .dir (List.pairwise_pair.mpr hlt) (by simp +decide) ?_
  rw [List.forall_mem_cons, List.forall_mem_singleton]
  exact ⟨.dir_singleton hn .file, h⟩

theorem linkless_withBucket (a : Artifact) (node : Node)
    (h : (withBucket n text origin).nodeAt? (Path.join "." a.bucket) = some node) :
    node.Linkless := by
  have hpath : Disk.Admissible (Path.join "." a.bucket) := by
    cases a <;> exact ⟨by decide, by decide⟩
  have hroot : RootAt ⟨"."⟩ (withBucket n text origin) [] := rootAt_here rfl
  rw [hroot.nodeAt?_eq a.isName_bucket (parts_join_root ⟨"."⟩ a.slash_not_mem_bucket) hpath] at h
  cases a with
  | program | trace => nomatch h
  | python | wat | assembly =>
    cases Option.some.inj h
    exact Node.linkless_dir (List.forall_mem_singleton.mpr (Node.linkless_file _))

theorem clear_withBucket (hslash : '/' ∉ name.toList)
    (hpath : ∀ a, Disk.Admissible (artifactPath ⟨"."⟩ a name))
    (hshort : ∀ a, (artifactName a name).utf8ByteSize ≤ Disk.maxName) :
    Clear ⟨"."⟩ (withBucket n text origin) [] name where
  toRootAt := rootAt_here rfl
  no_slash := hslash
  admissible := hpath
  short := hshort
  bucket a node h := by
    cases a with
    | program | trace => nomatch h
    | python | wat | assembly => exact ⟨_, (Option.some.inj h).symm⟩
  entry a node h := by
    rw [List.append_cons, Node.get?_append] at h
    obtain ⟨bucket, hbucket, h⟩ := Option.bind_eq_some_iff.mp h
    cases a with
    | program | trace => nomatch hbucket
    | python | wat | assembly =>
      cases Option.some.inj hbucket
      rw [Node.get?_dir_singleton] at h
      exact ⟨_, congrArg Prod.snd (List.mem_singleton.mp (Ordered.mem_of_lookup h))⟩

end WithBucket

def assignmentText : String := "var x = 1;"

def conditionalText : String := "var x = 1; if (x > 0) \x7b x = 2; \x7d"

def assignment : Program :=
  [.declare "x" (.num 1)]

def conditional : Program :=
  [.declare "x" (.num 1), .branch ⟨.gt, .var "x", .num 0⟩ [.assign "x" (.num 2)] none]

theorem exists_build (hread : w.readSource d name = .ok assignmentText) (ho : o.dialect = .full)
    (hlimit : o.maxSteps = 10000) :
    ∃ b, (o.build w d name).result = .ok b ∧ b.python = "x = 1\n" := by
  have hparse : o.dialect.parse assignmentText = .ok assignment := by
    rw [ho]
    exact eq_ok_of_toOption (by decide +kernel)
  have hrun : (assignment.run o.maxSteps).outcome.result = .ok (Env.empty.set "x" 1) := by
    rw [hlimit]
    rfl
  have hpython : assignment.pythonText Python.defaultIndent = "x = 1\n" := by decide +kernel
  obtain ⟨assembly, hasm⟩ : ∃ assembly, (o.printAssembly assignment).result = .ok assembly := by
    rw [Options.result_printAssembly]
    split <;> exact ⟨_, rfl⟩
  exact ⟨_, result_build hread hparse hrun rfl hasm, hpython⟩

-- Nothing is in the way of the one source that is processed.
theorem processAll_singleton {b : Build} (hclear : w.Clear d place name) (hsave : o.save = true)
    (hbuild : (o.build w d name).result = .ok b) :
    (processAll o w headed d [name]).exit = 0 ∧
      (processAll o w headed d [name]).disk = saved place name d b.artifacts := by
  obtain ⟨hresult, hdisk⟩ := process_eq hclear hsave hbuild
  rw [processAll, (processedThen_of_ok hresult).1, (processedThen_of_ok hresult).2, hdisk]
  exact ⟨rfl, rfl⟩

section TwoSources

def twoEntries : List (String × Node) :=
  [("a.txt", .file assignmentText.toUTF8), ("b.txt", .file conditionalText.toUTF8)]

-- An artifact from before, and two sources; there is no assembly of the second one.
def twoSources : Disk :=
  withBucket "old.py" "x = 0\n" (.dir twoEntries)

theorem wellFormed_twoSources : twoSources.WellFormed :=
  wellFormed_withBucket (by decide) <|
    .dir (List.pairwise_pair.mpr (by decide)) (by simp +decide)
      (by simp [twoEntries, Node.WellFormed.file])

theorem resolve_origin_twoSources : twoSources.resolve .look (origin ⟨"."⟩) =
    .ok ⟨["origin"], some (.dir twoEntries)⟩ :=
  resolve_origin rfl (.enter isName_origin rfl .done) rfl

theorem sources_twoSources : Workspace.sources ⟨"."⟩ twoSources = .ok ["a.txt", "b.txt"] := by
  simp only [Workspace.sources, Disk.node?, resolve_origin_twoSources]
  rfl

theorem clear_twoSources : Clear ⟨"."⟩ twoSources [] "a.txt" :=
  clear_withBucket (by decide) (fun a => by cases a <;> exact ⟨by decide, by decide⟩)
    fun a => by cases a <;> decide

theorem readSource_twoSources {d : Disk} {n text : String} (hd : d.WellFormed)
    (h : d.resolve .look (origin ⟨"."⟩) = .ok ⟨["origin"], some (.dir twoEntries)⟩)
    (hfile : (Node.dir twoEntries).get? [n] = some (.file text.toUTF8))
    (hopen : Openable ⟨"."⟩ [n]) : Workspace.readSource ⟨"."⟩ d n = .ok text := by
  have horigin : d.node? (origin ⟨"."⟩) = some (.dir twoEntries) := by rw [Disk.node?, h]
  have hread := readSource_file hd horigin hfile hopen rfl
  rwa [Path.ofNames, String.intercalate_singleton] at hread

theorem readSource_a : Workspace.readSource ⟨"."⟩ twoSources "a.txt" = .ok assignmentText :=
  readSource_twoSources wellFormed_twoSources resolve_origin_twoSources rfl
    ⟨⟨by decide, by decide⟩, by decide⟩

theorem exists_saved (headed : Bool) (hsave : o.save = true) (hdialect : o.dialect = .full)
    (hlimit : o.maxSteps = 10000) : ∃ b : Build, b.python = "x = 1\n" ∧
    (processAll o ⟨"."⟩ headed twoSources ["a.txt"]).exit = 0 ∧
    (processAll o ⟨"."⟩ headed twoSources ["a.txt"]).disk =
      saved [] "a.txt" twoSources b.artifacts := by
  obtain ⟨b, hbuild, hpython⟩ := exists_build readSource_a hdialect hlimit
  exact ⟨b, hpython, processAll_singleton clear_twoSources hsave hbuild⟩

theorem second_fails (hdialect : o.dialect = .full) (hasm : o.asm = true) :
    o.Fails ⟨"."⟩ (processAll o ⟨"."⟩ headed twoSources ["a.txt"]).disk "b.txt" := by
  have hready : Ready ⟨"."⟩ twoSources [] :=
    (rootAt_here rfl).ready (by decide) readSource_a linkless_withBucket
  have hkept : Kept [] twoSources (processAll o ⟨"."⟩ headed twoSources ["a.txt"]).disk :=
    processAll_kept (by simp +decide) hready
  have hresolve := hkept.resolve_look resolve_origin_twoSources (apart_origin [])
  have hd := processAll_wellFormed wellFormed_twoSources o ⟨"."⟩ headed ["a.txt"]
  have hparse : o.dialect.parse conditionalText = .ok conditional := by
    rw [hdialect]
    exact eq_ok_of_toOption (by decide +kernel)
  exact .assembly (readSource_twoSources hd hresolve rfl ⟨⟨by decide, by decide⟩, by decide⟩) hparse
    hasm rfl

-- The first source is saved, and the second one has no assembly.
theorem conditional_all_or_nothing :
    ∃ o, Options.ofArguments ["--all", "--asm"] = .ok o ∧
      o.sources twoSources = .ok ["a.txt", "b.txt"] ∧
      (run ["--all", "--asm"] twoSources).exit = 1 ∧
      (run ["--all", "--asm"] twoSources).disk =
        (processAll o ⟨o.root⟩ false twoSources ["a.txt"]).disk ∧
      (run ["--all", "--asm"] twoSources).disk.root.get? ["dist", "a.py"] =
        some (.file "x = 1\n".toUTF8) ∧
      (run ["--all", "--asm"] twoSources).disk.node? (origin ⟨o.root⟩) =
        some (.dir twoEntries) := by
  obtain ⟨o, ho, hroot, hall, hasm, hsave, hdialect, hlimit⟩ :
      ∃ o, Options.ofArguments ["--all", "--asm"] = .ok o ∧ o.root = "." ∧ o.all = true ∧
        o.asm = true ∧ o.save = true ∧ o.dialect = .full ∧ o.maxSteps = 10000 :=
    ⟨_, rfl, rfl, rfl, rfl, rfl, rfl, rfl⟩
  have hsources : o.sources twoSources = .ok ["a.txt", "b.txt"] := by
    rw [Options.sources, if_pos hall, hroot, sources_twoSources]
  have hnames : ∀ names, o.sources twoSources = .ok names →
      ∀ n ∈ names, Path.isAbsolute n = false ∧ ".." ∉ Path.parts n := by
    intro names h
    cases hsources.symm.trans h
    simp +decide
  have ⟨hfail, _, hkept⟩ := run_all_or_nothing ho twoSources
  refine ⟨o, ho, hsources, ?_⟩
  rw [hroot] at hfail hkept ⊢
  obtain ⟨b, hpython, hpre, hsaved⟩ := exists_saved false hsave hdialect hlimit
  obtain ⟨hexit, hdisk⟩ := hfail _ ["a.txt"] "b.txt" [] false hsources rfl hpre
    (second_fails hdialect hasm)
  obtain ⟨-, -, -, horigin⟩ := hkept hnames linkless_withBucket
  have houtside : Workspace.Outside ⟨"."⟩ twoSources ["origin"] :=
    ((rootAt_here rfl).outside_iff (by decide) readSource_a).mpr (apart_origin [])
  refine ⟨hexit, hdisk, ?_, ?_⟩
  case refine_1 =>
    rw [hdisk, hsaved, ← hpython]
    exact get?_saved_python clear_twoSources
  case refine_2 =>
    have hnode := horigin fun p hp => by
      cases resolve_origin_twoSources.symm.trans hp
      exact houtside
    rw [hnode, Disk.node?, resolve_origin_twoSources]

end TwoSources

section LinkedOrigin

-- The origin is a link to a bucket.
def linkedOrigin : Disk :=
  withBucket "a.py" assignmentText (.link "dist")

theorem wellFormed_linkedOrigin : linkedOrigin.WellFormed :=
  wellFormed_withBucket (by decide) .link

theorem clear_linkedOrigin : Clear ⟨"."⟩ linkedOrigin [] "a.py" :=
  clear_withBucket (by decide) (fun a => by cases a <;> exact ⟨by decide, by decide⟩)
    fun a => by cases a <;> decide

-- What is read through the link is what stands in the bucket.
theorem readSource_linked {text : String} (hd : d.WellFormed) (hcurrent : d.current = [])
    (hlink : d.root.get? ["origin"] = some (.link "dist"))
    (hfile : d.root.get? ["dist", "a.py"] = some (.file text.toUTF8)) :
    Workspace.readSource ⟨"."⟩ d "a.py" = .ok text := by
  obtain ⟨root, current⟩ := d
  obtain rfl : current = [] := hcurrent
  have hdist : Disk.IsName "dist" := ⟨by decide, by decide, by decide, by decide⟩
  obtain ⟨es, hes⟩ : ∃ es, root.get? [] = some (.dir es) := Node.exists_dir_of_get?_cons hlink
  obtain ⟨fs, hfs⟩ : ∃ fs, root.get? ["dist"] = some (.dir fs) :=
    Node.exists_dir_of_get?_cons (n := "a.py") hfile
  have hresolve := resolve_origin hes (.follow isName_origin hlink (.enter hdist hfs .done)) hfs
  have horigin : Disk.node? ⟨root, []⟩ (origin ⟨"."⟩) = some (.dir fs) := by
    rw [Disk.node?, hresolve]
  have hfile : (Node.dir fs).get? ["a.py"] = some (.file text.toUTF8) := by
    have hbelow : root.get? (["dist"] ++ ["a.py"]) = some (.file text.toUTF8) := hfile
    rwa [Node.get?_append, hfs] at hbelow
  have hread := readSource_file hd horigin hfile ⟨⟨by decide, by decide⟩, by decide⟩ rfl
  rwa [Path.ofNames, String.intercalate_singleton] at hread

-- A call overwrites a source that is read through the link.
theorem linkedOrigin_overwritten :
    ∃ o, Options.ofArguments ["a.py"] = .ok o ∧
      (∀ names, o.sources linkedOrigin = .ok names →
        ∀ n ∈ names, Path.isAbsolute n = false ∧ ".." ∉ Path.parts n) ∧
      (∀ (a : Artifact) node, linkedOrigin.nodeAt? (Path.join o.root a.bucket) = some node →
        node.Linkless) ∧
      Workspace.readSource ⟨o.root⟩ linkedOrigin "a.py" = .ok "var x = 1;" ∧
      Workspace.readSource ⟨o.root⟩ (run ["a.py"] linkedOrigin).disk "a.py" = .ok "x = 1\n" := by
  obtain ⟨o, ho, hroot, hsources, hsave, hdialect, hlimit⟩ :
      ∃ o, Options.ofArguments ["a.py"] = .ok o ∧ o.root = "." ∧
        o.sources linkedOrigin = .ok ["a.py"] ∧ o.save = true ∧ o.dialect = .full ∧
        o.maxSteps = 10000 :=
    ⟨_, rfl, rfl, rfl, rfl, rfl, rfl⟩
  have hnames : ∀ n ∈ ["a.py"], Path.isAbsolute n = false ∧ ".." ∉ Path.parts n := by
    simp +decide
  have hread : Workspace.readSource ⟨"."⟩ linkedOrigin "a.py" = .ok assignmentText :=
    readSource_linked wellFormed_linkedOrigin rfl rfl rfl
  obtain ⟨b, hbuild, hpython⟩ := exists_build hread hdialect hlimit
  have hrun := (run_of_sources (d := linkedOrigin) ho hsources).2
  rw [hroot] at hrun
  have hready := (rootAt_here rfl).ready (by decide) hread linkless_withBucket
  have hkept : Kept [] linkedOrigin (run ["a.py"] linkedOrigin).disk :=
    hrun ▸ processAll_kept hnames hready
  have hsaved := hrun.trans (processAll_singleton clear_linkedOrigin hsave hbuild).2
  have hfile : (run ["a.py"] linkedOrigin).disk.root.get? ["dist", "a.py"] =
      some (.file "x = 1\n".toUTF8) := by
    rw [hsaved, ← hpython]
    exact get?_saved_python clear_linkedOrigin
  refine ⟨o, ho, fun names h => ?_, ?_⟩
  case refine_1 => exact Except.ok.inj (hsources.symm.trans h) ▸ hnames
  case refine_2 =>
    rw [hroot]
    exact ⟨linkless_withBucket, hread, readSource_linked (run_wellFormed wellFormed_linkedOrigin _)
      hkept.current (hkept.apart _ (apart_origin [])) hfile⟩

end LinkedOrigin

end CommandLine

end Imp
