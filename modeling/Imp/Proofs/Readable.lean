import Imp.CommandLine
import Imp.Proofs.Sources
import Imp.Proofs.Workspace

/-!
Which of the listed sources can be read. A name leads back to its file unless a part of it has a
backslash, which is listed as a slash, or the path is too long to be opened.
-/

namespace Imp

open Imp.Path (IsFileName)

namespace Disk

variable {root node : Node} {t : Trail} {place : Place} {ps ns : List String} {p : String}
  {links : Nat} {es : List (String × Node)}

-- The parts of a path that leads to a directory lead to it on their own.
theorem Finds.leads (h : Finds root links t ps place) (ht : Trail.Of root t)
    (hdir : place.node = some (.dir es)) :
    ∃ links', Leads root links t.names ps links' place.names := by
  have hat : ∀ {t : Trail} {es}, Trail.Of root t → t.node root = .dir es →
      root.get? t.names = some (.dir es) := fun ht hdir => hdir ▸ ht.get?_names
  induction h with
  | here => exact ⟨_, .done⟩
  | absent | link => nomatch hdir
  | skip hp hes _ ih =>
    obtain ⟨links', h⟩ := ih ht hdir
    exact ⟨links', .skip hp (hat ht hes) h⟩
  | up hes _ ih =>
    obtain ⟨links', h⟩ := ih ht.tail hdir
    rw [Trail.names_tail] at h
    exact ⟨links', .up (hat ht hes) h⟩
  | @follow p _ _ target _ _ _ hp hes hentry _ ih =>
    obtain ⟨hof, hstart⟩ := ht.restart target
    obtain ⟨links', h⟩ := ih hof hdir
    rw [hstart] at h
    exact ⟨links', .follow hp (ht.get?_entry hes p ▸ hentry) h⟩
  | @enter p ps _ child _ t _ hp hes hentry _ hfinds ih =>
    have hchild := ht.get?_entry hes p ▸ hentry
    obtain ⟨fs, rfl⟩ : ∃ fs, child = .dir fs := by
      cases ps with
      | nil =>
        cases hfinds
        exact ⟨es, Option.some.inj hdir⟩
      | cons q ps => exact hfinds.exists_dir (List.cons_ne_nil q ps)
    obtain ⟨links', h⟩ := ih (ht.enter hchild) hdir
    rw [Trail.names_cons] at h
    exact ⟨links', .enter hp hchild h⟩

-- No part of a path that leads somewhere is too long.
theorem Finds.short (h : Finds root links t ps place) :
    ∀ p ∈ ps, Path.IsEntry p → p.utf8ByteSize ≤ maxName := by
  induction h with
  | here => exact nofun
  | skip hskip _ _ ih =>
    refine List.forall_mem_cons.mpr ⟨fun hp => absurd hskip ?_, ih⟩
    simp [hp.ne_empty, hp.ne_here]
  | up _ _ ih => exact List.forall_mem_cons.mpr ⟨fun hp => absurd rfl hp.ne_above, ih⟩
  | absent hp | link hp => exact List.forall_mem_singleton.mpr fun _ => hp.short
  | follow hp _ _ _ ih =>
    exact List.forall_mem_cons.mpr
      ⟨fun _ => hp.short, fun q hq => ih q (List.mem_append_right _ hq)⟩
  | enter hp _ _ _ _ ih => exact List.forall_mem_cons.mpr ⟨fun _ => hp.short, ih⟩

-- From a directory, the names of what is below it lead there.
theorem walk_names (ht : Trail.Of root t) (hnode : (t.node root).get? ns = some node)
    (hlink : ∀ target, node ≠ .link target) (hns : ∀ n ∈ ns, IsName n) :
    walk root .look links t ns = .ok ⟨t.names ++ ns, some node⟩ := by
  induction ns generalizing t with
  | nil =>
    rw [Node.get?_nil, Option.some_inj] at hnode
    rw [walk, hnode, List.append_nil]
  | cons n ns ih =>
    rw [List.forall_mem_cons] at hns
    obtain ⟨fs, hfs⟩ : ∃ fs, t.node root = .dir fs := by
      cases hdir : t.node root with
      | dir fs => exact ⟨fs, rfl⟩
      | file | link =>
        rw [hdir] at hnode
        cases hnode
    rw [hfs] at hnode
    obtain ⟨child, hchild, hnode⟩ := Option.bind_eq_some_iff.mp hnode
    have hnolink : ∀ target, child ≠ .link target := by
      rintro target rfl
      cases ns with
      | nil => exact hlink target (Option.some.inj hnode).symm
      | cons => cases hnode
    have htrail : Trail.Of root ((n, child) :: t) := ⟨ht, fs, hfs, hchild⟩
    rw [walk_enter hns.1 hfs hchild hnolink (by simp), ih htrail hnode hns.2, Trail.names_cons,
      List.append_assoc, List.singleton_append]

end Disk

namespace Workspace

variable {w : Workspace} {d : Disk} {es : List (String × Node)} {ns : List String}
  {content : ByteArray} {names : List String}

-- The path of a file below the origin can be opened.
structure Openable (w : Workspace) (ns : List String) : Prop where
  admissible : Disk.Admissible (Path.join w.origin (Path.ofNames ns))
  short : ∀ n ∈ ns, n.utf8ByteSize ≤ Disk.maxName

-- No part of a name has a backslash.
def Unslashed (ns : List String) : Prop :=
  ∀ n ∈ ns, '\\' ∉ n.toList

section Source

variable (hd : d.WellFormed) (horigin : d.node? w.origin = some (.dir es))
  (hfile : (Node.dir es).get? ns = some (.file content))

include hd horigin hfile

theorem parts_file : Path.parts (Path.join w.origin (Path.ofNames ns)) =
    Path.base w.root ++ "origin" :: ns ∧ ns ≠ [] := by
  have hnames := ((hd.node? horigin).get? hfile).2
  have hne : ns ≠ [] := by
    rintro rfl
    nomatch hfile
  have hparts : Path.parts (Path.ofNames ns) = ns :=
    Path.parts_intercalate hne fun n hn => (hnames n hn).no_slash
  have hplain : Path.Plain (Path.ofNames ns) := by
    rw [Path.Plain, hparts]
    exact fun n hn => (hnames n hn).toIsEntry
  rw [w.parts_source hplain.not_isAbsolute, hparts]
  exact ⟨rfl, hne⟩

-- A file below the origin is found at its path.
theorem resolve_file (hopen : w.Openable ns) :
    ∃ place, d.resolve .look (Path.join w.origin (Path.ofNames ns)) = .ok place ∧
      place.node = some (.file content) := by
  have hnames := ((hd.node? horigin).get? hfile).2
  obtain ⟨hparts, -⟩ := parts_file hd horigin hfile
  have horigin_parts : Path.parts w.origin = Path.base w.root ++ "origin" :: [] :=
    w.parts_join_root (by decide)
  rw [Disk.node?] at horigin
  split at horigin
  case h_2 => cases horigin
  case h_1 place hplace =>
    rw [Disk.resolve_eq (Disk.admissible_of_resolve hplace) horigin_parts (by decide)] at hplace
    rw [Disk.resolve_eq hopen.admissible hparts (by decide)]
    cases ht : d.begin? (Path.base w.root) with
    | none => simp [ht] at hplace
    | some t =>
      rw [ht] at hplace
      have hof := (Disk.of_begin? ht).1
      have hfinds := Disk.finds_of_walk hplace
      obtain ⟨links, hleads⟩ := hfinds.leads hof horigin
      obtain ⟨u, hu, hthere, hwalk⟩ := hleads.walk_eq hof rfl
      have hnode : u.node d.root = .dir es :=
        hu.node_eq (hthere ▸ (hfinds.node_eq hof).symm.trans horigin)
      have hname : ∀ n ∈ ns, Disk.IsName n := fun n hn =>
        ⟨(hnames n hn).ne_empty, (hnames n hn).ne_here, (hnames n hn).ne_above, hopen.short n hn⟩
      refine ⟨⟨u.names ++ ns, some (.file content)⟩, ?_, rfl⟩
      rw [List.append_cons]
      exact (hwalk .look _ (.inl rfl)).trans (Disk.walk_names hu (hnode ▸ hfile) (by simp) hname)

theorem isFile_iff_openable :
    d.isFile (Path.join w.origin (Path.ofNames ns)) = true ↔ w.Openable ns := by
  constructor
  case mp =>
    intro h
    cases hplace : d.resolve .look (Path.join w.origin (Path.ofNames ns)) with
    | error e => simp [Disk.isFile, Disk.node?, hplace] at h
    | ok place =>
      have hnames := ((hd.node? horigin).get? hfile).2
      obtain ⟨t, -, hfinds⟩ := Disk.exists_finds hplace
      rw [(parts_file hd horigin hfile).1] at hfinds
      refine ⟨Disk.admissible_of_resolve hplace, fun n hn => ?_⟩
      exact hfinds.short n (by simp [hn]) (hnames n hn).toIsEntry
  case mpr =>
    intro hopen
    obtain ⟨place, hplace, hnode⟩ := resolve_file hd horigin hfile hopen
    simp only [Disk.isFile, Disk.node?, hplace, hnode]

theorem readSource_file {text : String} (hopen : w.Openable ns) (htext : content = text.toUTF8) :
    w.readSource d (Path.ofNames ns) = .ok text := by
  have hisFile := (isFile_iff_openable hd horigin hfile).mpr hopen
  obtain ⟨place, hplace, hnode⟩ := resolve_file hd horigin hfile hopen
  have hvalid : String.fromUTF8? content = some text := by
    rw [htext]
    simp only [String.fromUTF8?]
    exact dif_pos text.isValidUTF8
  have hread : d.readText (Path.join w.origin (Path.ofNames ns)) = .ok text := by
    simp only [Disk.readText, hplace, hnode, bind, Except.bind, hvalid]
  unfold readSource
  dsimp only
  rw [if_pos hisFile, hread]
  rfl

theorem readSource_of_not_openable (hopen : ¬w.Openable ns) :
    w.readSource d (Path.ofNames ns) =
      .error (.sourceNotFound (Path.join w.origin (Path.ofNames ns))) := by
  unfold readSource
  dsimp only
  rw [if_neg (mt (isFile_iff_openable hd horigin hfile).mp hopen)]

end Source

-- No backslash is left in a name that is listed.
theorem backslash_not_mem_sourceName (ns : List String) : '\\' ∉ (sourceName ns).toList := by
  rw [sourceName, String.toList_ofList, List.mem_map]
  rintro ⟨c, -, hc⟩
  split at hc
  case isTrue => exact absurd hc (by decide)
  case isFalse hne => exact hne hc

theorem mem_ofNames {c : Char} {n : String} (hn : n ∈ ns) (hc : c ∈ n.toList) :
    c ∈ (Path.ofNames ns).toList := by
  induction ns with
  | nil => nomatch hn
  | cons m ns ih =>
    cases ns with
    | nil => simpa [Path.ofNames, List.mem_singleton.mp hn] using hc
    | cons k ns =>
      rw [Path.ofNames, String.intercalate_cons_cons, String.toList_append, String.toList_append,
        List.mem_append, List.mem_append]
      obtain rfl | hn := List.mem_cons.mp hn
      case inl => exact .inl (.inl hc)
      case inr => exact .inr (ih hn)

section Listed

variable (hd : d.WellFormed) (horigin : d.node? w.origin = some (.dir es))
  (hlisted : w.sources d = .ok names)

include hd horigin hlisted

theorem eq_of_listed : names = (Node.filesOf es).map (sourceName ·.1) := by
  obtain ⟨ns, -, herror⟩ | ⟨-, hok⟩ := sources_cases (hd.node? horigin) horigin
  case inl => nomatch herror.symm.trans hlisted
  case inr => exact Except.ok.inj (hlisted.symm.trans hok)

-- A file is listed under its own name unless there is a backslash in it.
theorem ofNames_mem_listed_iff (hfile : (Node.dir es).get? ns = some (.file content)) :
    Path.ofNames ns ∈ names ↔ Unslashed ns := by
  rw [eq_of_listed hd horigin hlisted, List.mem_map]
  constructor
  case mp =>
    rintro ⟨f, -, hname⟩ n hn hc
    exact backslash_not_mem_sourceName f.1 (hname ▸ mem_ofNames hn hc)
  case mpr =>
    intro hns
    exact ⟨(ns, content), (Node.mem_files_iff (hd.node? horigin)).mpr hfile, sourceName_eq hns⟩

theorem eq_fileNames_of_listed
    (hnames : ∀ ns content, (Node.dir es).get? ns = some (.file content) → Unslashed ns) :
    names = fileNames es := by
  rw [eq_of_listed hd horigin hlisted]
  exact List.map_congr_left fun f hf =>
    sourceName_eq (hnames f.1 f.2 (get?_of_mem_filesOf (hd.node? horigin) hf).1)

end Listed

-- Each file without a backslash in its name is listed under that name and read by it, if its path
-- can be opened. If there is no backslash in any name, nothing else is listed, and nothing twice.
theorem listed_readable (hd : d.WellFormed) (horigin : d.node? w.origin = some (.dir es))
    (hlisted : w.sources d = .ok names) :
    (∀ ns content, (Node.dir es).get? ns = some (.file content) →
      (Path.ofNames ns ∈ names ↔ Unslashed ns) ∧
      (w.Openable ns → ∀ text, content = text.toUTF8 →
        w.readSource d (Path.ofNames ns) = .ok text) ∧
      (¬w.Openable ns → w.readSource d (Path.ofNames ns) =
        .error (.sourceNotFound (Path.join w.origin (Path.ofNames ns))))) ∧
    ((∀ ns content, (Node.dir es).get? ns = some (.file content) → Unslashed ns) →
      names.Nodup ∧ ∀ name ∈ names, ∃ ns content,
        (Node.dir es).get? ns = some (.file content) ∧ name = Path.ofNames ns) ∧
    ∀ o : CommandLine.Options, o.all = true → o.root = w.root → names ≠ [] →
      CommandLine.execute o d = CommandLine.processAll o w (1 < names.length) d names := by
  refine ⟨fun ns content hfile => ⟨ofNames_mem_listed_iff hd horigin hlisted hfile,
    fun hopen text => readSource_file hd horigin hfile hopen,
    readSource_of_not_openable hd horigin hfile⟩, fun hnames => ?_, fun o hall hroot hne => ?_⟩
  case refine_1 =>
    have hes := hd.node? horigin
    rw [eq_fileNames_of_listed hd horigin hlisted hnames]
    exact ⟨(pairwise_fileNames hes).imp NameLt.ne, fun name => (mem_fileNames_iff hes).mp⟩
  case refine_2 =>
    have hw : (⟨o.root⟩ : Workspace) = w := congrArg Workspace.mk hroot
    unfold CommandLine.execute
    dsimp only
    rw [if_pos hall, hw, hlisted]
    cases names with
    | nil => exact absurd rfl hne
    | cons => rfl

-- A file in a directory, and one whose name has a space.
def texts : List (String × Node) :=
  [("a", .dir [("b c.txt", .file "var x = 1;".toUTF8)])]

theorem texts_readable :
    (withOrigin texts).WellFormed ∧ (withOrigin texts).node? atRoot.origin = some (.dir texts) ∧
    atRoot.sources (withOrigin texts) = .ok ["a/b c.txt"] ∧
    (Node.dir texts).get? ["a", "b c.txt"] = some (.file "var x = 1;".toUTF8) ∧
    atRoot.readSource (withOrigin texts) "a/b c.txt" = .ok "var x = 1;" := by
  have hd : (withOrigin texts).WellFormed :=
    wellFormed_withOrigin (.dir_singleton (by decide) (.dir_singleton (by decide) .file))
  have horigin := node?_withOrigin texts
  have hlisted : atRoot.sources (withOrigin texts) = .ok ["a/b c.txt"] := by
    rw [sources, horigin]
    rfl
  have hfile : (Node.dir texts).get? ["a", "b c.txt"] = some (.file "var x = 1;".toUTF8) := rfl
  have hopen : atRoot.Openable ["a", "b c.txt"] := ⟨⟨by decide, by decide⟩, by decide⟩
  obtain ⟨-, hread, -⟩ := (listed_readable hd horigin hlisted).1 _ _ hfile
  exact ⟨hd, horigin, hlisted, hfile, hread hopen _ rfl⟩

-- Names with a backslash, one of them beside a directory.
def slashed : List (String × Node) :=
  [("a", .dir [("b", .file "var x = 1;".toUTF8)]), ("a\\b", .file "var y = 2;".toUTF8),
    ("c\\d", .file "var z = 3;".toUTF8)]

-- Two files are listed under one name, by which only one of them is read, and one file under a name
-- by which there is none.
theorem slashed_not_readable :
    (withOrigin slashed).WellFormed ∧
    (withOrigin slashed).node? atRoot.origin = some (.dir slashed) ∧
    atRoot.sources (withOrigin slashed) = .ok ["a/b", "a/b", "c/d"] ∧
    atRoot.readSource (withOrigin slashed) "a/b" = .ok "var x = 1;" ∧
    atRoot.readSource (withOrigin slashed) "c/d" = .error (.sourceNotFound "/origin/c/d") := by
  have hd : (withOrigin slashed).WellFormed := by
    have hsorted : Ordered.Sorted slashed :=
      List.pairwise_cons.mpr ⟨by decide, List.pairwise_pair.mpr (by decide)⟩
    refine wellFormed_withOrigin (.dir hsorted (by decide) ?_)
    rw [slashed, List.forall_mem_cons, List.forall_mem_cons, List.forall_mem_singleton]
    exact ⟨.dir_singleton (by decide) .file, .file, .file⟩
  have horigin := node?_withOrigin slashed
  refine ⟨hd, horigin, ?_, ?_, ?_⟩
  case refine_1 =>
    rw [sources, horigin]
    rfl
  case refine_2 =>
    have hname : "a/b" = Path.ofNames ["a", "b"] := by rfl
    have hfile : (Node.dir slashed).get? ["a", "b"] = some (.file "var x = 1;".toUTF8) := rfl
    have hopen : atRoot.Openable ["a", "b"] := ⟨⟨by decide, by decide⟩, by decide⟩
    rw [hname]
    exact readSource_file hd horigin hfile hopen rfl
  case refine_3 =>
    have hpath : Path.join atRoot.origin "c/d" = "/origin/c/d" := by rfl
    have hparts : Path.parts "/origin/c/d" = [""] ++ "origin" :: ["c", "d"] := by rfl
    have hname : Disk.IsName "origin" := ⟨by decide, by decide, by decide, by decide⟩
    have hc : Disk.IsName "c" := ⟨by decide, by decide, by decide, by decide⟩
    have hresolve : (withOrigin slashed).resolve .look "/origin/c/d" = .error .notFound := by
      rw [Disk.resolve_eq ⟨by decide, by decide⟩ hparts (by decide)]
      calc
        _ = Disk.walk (withOrigin slashed).root .look Disk.maxLinks [] ["origin", "c", "d"] :=
          Disk.walk_skip (.inl rfl) rfl
        _ = Disk.walk _ _ _ [_] ["c", "d"] := Disk.walk_enter hname rfl rfl (by simp) (by simp)
        _ = _ := Disk.walk_absent hc rfl rfl (by simp)
    have hnone : (withOrigin slashed).isFile "/origin/c/d" = false := by
      rw [Disk.isFile, Disk.node?, hresolve]
    unfold readSource
    dsimp only
    rw [hpath, hnone]
    rfl

end Workspace

end Imp
