import Imp.Proofs.ByteOrder
import Imp.Proofs.Files.WellFormed
import Imp.Workspace

/-!
The list of sources. It has each file below the origin once, directory by directory, which is the
order of their names part by part.
-/

namespace Imp

open Imp.Path (IsFileName)

namespace Node

variable {node child : Node} {es : List (String × Node)} {ns : List String} {content : ByteArray}

theorem filesOf_eq (es : List (String × Node)) :
    filesOf es = es.flatMap fun e => e.2.files.map fun f => (e.1 :: f.1, f.2) := by
  induction es with
  | nil => rfl
  | cons e es ih => rw [filesOf, ih, List.flatMap_cons]

theorem dirsOf_eq (es : List (String × Node)) :
    dirsOf es = es.flatMap fun e => e.2.dirs.map (e.1 :: ·) := by
  induction es with
  | nil => rfl
  | cons e es ih => rw [dirsOf, ih, List.flatMap_cons]

-- What is below a directory is in an entry of it.
theorem get?_dir_iff (h : Ordered.Sorted es) : ns ≠ [] ∧ (dir es).get? ns = some node ↔
    ∃ e ∈ es, ∃ ms, ns = e.1 :: ms ∧ e.2.get? ms = some node := by
  constructor
  case mp =>
    rintro ⟨hne, hget⟩
    cases ns with
    | nil => exact absurd rfl hne
    | cons n ms =>
      obtain ⟨child, hchild, hget⟩ := Option.bind_eq_some_iff.mp hget
      exact ⟨(n, child), (Ordered.mem_iff_lookup h).mpr hchild, ms, rfl, hget⟩
  case mpr =>
    rintro ⟨⟨n, child⟩, he, ms, rfl, hget⟩
    have hchild := (Ordered.mem_iff_lookup h).mp he
    exact ⟨List.cons_ne_nil n ms, by simp [get?, hchild, hget]⟩

theorem mem_files_iff (h : node.WellFormed) :
    (ns, content) ∈ node.files ↔ node.get? ns = some (.file content) := by
  induction h generalizing ns with
  | file => cases ns <;> simp [files, get?, eq_comm]
  | link => cases ns <;> simp [files, get?]
  | @dir es sorted _ _ ih =>
    have hne : (dir es).get? ns = some (.file content) → ns ≠ [] := by
      rintro hget rfl
      cases hget
    rw [← and_iff_right_of_imp hne, get?_dir_iff sorted, files, filesOf_eq]
    simp only [List.mem_flatMap, List.mem_map, Prod.mk.injEq]
    constructor
    case mp =>
      rintro ⟨e, he, ⟨ms, _⟩, hf, rfl, rfl⟩
      exact ⟨e, he, ms, rfl, (ih e he).mp hf⟩
    case mpr =>
      rintro ⟨e, he, ms, rfl, hget⟩
      exact ⟨e, he, (ms, content), (ih e he).mpr hget, rfl, rfl⟩

theorem mem_dirsOf_iff (h : Ordered.Sorted es)
    (hdirs : ∀ e ∈ es, ∀ {ms}, ms ∈ e.2.dirs ↔ ∃ fs, e.2.get? ms = some (.dir fs)) :
    ns ∈ dirsOf es ↔ ns ≠ [] ∧ ∃ fs, (dir es).get? ns = some (.dir fs) := by
  simp only [dirsOf_eq, List.mem_flatMap, List.mem_map]
  constructor
  case mp =>
    rintro ⟨e, he, ms, hms, rfl⟩
    obtain ⟨fs, hfs⟩ := (hdirs e he).mp hms
    have ⟨hne, hget⟩ := (get?_dir_iff h).mpr ⟨e, he, ms, rfl, hfs⟩
    exact ⟨hne, fs, hget⟩
  case mpr =>
    rintro ⟨hne, fs, hget⟩
    obtain ⟨e, he, ms, rfl, hfs⟩ := (get?_dir_iff h).mp ⟨hne, hget⟩
    exact ⟨e, he, ms, (hdirs e he).mpr ⟨fs, hfs⟩, rfl⟩

theorem mem_dirs_iff (h : node.WellFormed) :
    ns ∈ node.dirs ↔ ∃ es, node.get? ns = some (.dir es) := by
  induction h generalizing ns with
  | file => cases ns <;> simp [dirs, get?]
  | link => cases ns <;> simp [dirs, get?]
  | @dir es sorted _ _ ih =>
    rw [dirs, List.mem_cons, mem_dirsOf_iff sorted fun e he => ih e he]
    cases ns <;> simp

theorem pairwise_files (h : node.WellFormed) :
    node.files.Pairwise fun f g => List.Lex (· < ·) f.1 g.1 := by
  induction h with
  | file => exact List.pairwise_singleton ..
  | link => exact .nil
  | @dir es sorted _ _ ih =>
    rw [files, filesOf_eq, List.pairwise_flatMap]
    refine ⟨fun e he => ?inside, ?across⟩
    case inside => exact List.pairwise_map.mpr ((ih e he).imp .cons)
    case across =>
      refine sorted.imp fun hlt f hf g hg => ?_
      obtain ⟨_, _, rfl⟩ := List.mem_map.mp hf
      obtain ⟨_, _, rfl⟩ := List.mem_map.mp hg
      exact .rel hlt

end Node

namespace Path

variable {ns ms : List String} {c : Char}

theorem mem_of_mem_ofNames (h : c ∈ (ofNames ns).toList) (hc : c ≠ '/') :
    ∃ n ∈ ns, c ∈ n.toList := by
  induction ns with
  | nil => simp [ofNames] at h
  | cons n ns ih =>
    cases ns with
    | nil => exact ⟨n, List.mem_singleton_self n, by simpa [ofNames] using h⟩
    | cons m ns =>
      rw [ofNames, String.intercalate_cons_cons, String.toList_append, String.toList_append,
        List.mem_append, List.mem_append] at h
      obtain (h | h) | h := h
      case inl.inl => exact ⟨n, List.mem_cons_self, h⟩
      case inl.inr => exact absurd (by simpa using h) hc
      case inr =>
        obtain ⟨k, hk, h⟩ := ih h
        exact ⟨k, List.mem_cons_of_mem n hk, h⟩

end Path

namespace Workspace

variable {w : Workspace} {d : Disk} {es : List (String × Node)} {ns : List String}

theorem sourceName_eq (h : ∀ n ∈ ns, '\\' ∉ n.toList) : sourceName ns = Path.ofNames ns := by
  have hkeep : ∀ c ∈ (Path.ofNames ns).toList, (if c = '\\' then '/' else c) = c := by
    intro c hc
    refine if_neg ?_
    rintro rfl
    obtain ⟨n, hn, hc⟩ := Path.mem_of_mem_ofNames hc (by decide)
    exact h n hn hc
  rw [sourceName, List.map_congr_left hkeep, List.map_id', String.ofList_toList]

-- A directory below the origin with a path that is too long for it to be listed.
structure Unlisted (w : Workspace) (es : List (String × Node)) (ns : List String) : Prop where
  below : ns ≠ []
  dir : ∃ fs, (Node.dir es).get? ns = some (.dir fs)
  long : Disk.maxPath < (Path.join w.origin (Path.ofNames ns)).utf8ByteSize

theorem mem_dirPaths_iff (h : (Node.dir es).WellFormed) {path : String} :
    path ∈ w.dirPaths es ∧ Disk.maxPath < path.utf8ByteSize ↔
      ∃ ns, w.Unlisted es ns ∧ path = Path.join w.origin (Path.ofNames ns) := by
  cases h with
  | dir sorted _ entries =>
    have hdirs : ∀ {ns}, ns ∈ Node.dirsOf es ↔
        ns ≠ [] ∧ ∃ fs, (Node.dir es).get? ns = some (.dir fs) :=
      Node.mem_dirsOf_iff sorted fun e he => Node.mem_dirs_iff (entries e he)
    simp only [dirPaths, List.mem_map, hdirs]
    constructor
    case mp =>
      rintro ⟨⟨ns, ⟨hne, hdir⟩, rfl⟩, hlong⟩
      exact ⟨ns, ⟨hne, hdir, hlong⟩, rfl⟩
    case mpr =>
      rintro ⟨ns, ⟨hne, hdir, hlong⟩, rfl⟩
      exact ⟨⟨ns, ⟨hne, hdir⟩, rfl⟩, hlong⟩

theorem sources_cases (hes : (Node.dir es).WellFormed)
    (horigin : d.node? w.origin = some (.dir es)) :
    (∃ ns, w.Unlisted es ns ∧
      w.sources d = .error (.files (.unlisted (Path.join w.origin (Path.ofNames ns))))) ∨
    (∀ ns, ¬w.Unlisted es ns) ∧ w.sources d = .ok ((Node.filesOf es).map (sourceName ·.1)) := by
  rw [sources, horigin]
  dsimp only
  split
  case h_1 path hpath =>
    have hlong : Disk.maxPath < path.utf8ByteSize := by simpa using List.find?_some hpath
    obtain ⟨ns, hns, rfl⟩ := (mem_dirPaths_iff hes).mp ⟨List.mem_of_find?_eq_some hpath, hlong⟩
    exact .inl ⟨ns, hns, rfl⟩
  case h_2 hnone =>
    refine .inr ⟨fun ns hns => ?_, rfl⟩
    have ⟨hmem, hlong⟩ := (mem_dirPaths_iff hes).mpr ⟨ns, hns, rfl⟩
    have hshort := List.find?_eq_none.mp hnone _ hmem
    exact hshort (decide_eq_true hlong)

-- A name comes before another one, part by part.
def NameLt (m n : String) : Prop :=
  List.Lex ByteLt (Path.parts m) (Path.parts n)

theorem NameLt.ne {m n : String} (h : NameLt m n) : m ≠ n := by
  have hparts : List.Lex (· ≠ ·) (Path.parts m) (Path.parts n) := by
    refine List.Lex.imp (fun a b hlt => ?_) _ _ h
    rintro rfl
    exact String.lt_irrefl a (byteLt_iff.mp hlt)
  rintro rfl
  exact List.Lex.to_ne hparts rfl

-- Of names of entries with slashes between them, the first difference decides.
theorem nameLt_ofNames {ms : List String} (hns : ns ≠ []) (hms : ms ≠ [])
    (hns' : ∀ n ∈ ns, IsFileName n) (hms' : ∀ n ∈ ms, IsFileName n)
    (h : List.Lex (· < ·) ns ms) : NameLt (Path.ofNames ns) (Path.ofNames ms) := by
  have hparts : ∀ {ns : List String}, ns ≠ [] → (∀ n ∈ ns, IsFileName n) →
      Path.parts (Path.ofNames ns) = ns := fun hne h =>
    Path.parts_intercalate hne fun n hn => (h n hn).no_slash
  rw [NameLt, hparts hns hns', hparts hms hms']
  exact List.Lex.imp (fun _ _ => byteLt_of_lt) _ _ h

-- The names of the files below a directory.
def fileNames (es : List (String × Node)) : List String :=
  (Node.filesOf es).map fun f => Path.ofNames f.1

section FileNames

variable (hes : (Node.dir es).WellFormed)

include hes

theorem get?_of_mem_filesOf {f : List String × ByteArray} (hf : f ∈ Node.filesOf es) :
    (Node.dir es).get? f.1 = some (.file f.2) ∧ f.1 ≠ [] := by
  have hget : (Node.dir es).get? f.1 = some (.file f.2) := (Node.mem_files_iff hes).mp hf
  refine ⟨hget, fun hnil => ?_⟩
  rw [hnil] at hget
  nomatch hget

theorem mem_fileNames_iff {name : String} : name ∈ fileNames es ↔
    ∃ ns content, (Node.dir es).get? ns = some (.file content) ∧ name = Path.ofNames ns := by
  rw [fileNames, List.mem_map]
  constructor
  case mp =>
    rintro ⟨f, hf, rfl⟩
    exact ⟨f.1, f.2, (get?_of_mem_filesOf hes hf).1, rfl⟩
  case mpr =>
    rintro ⟨ns, content, hget, rfl⟩
    exact ⟨(ns, content), (Node.mem_files_iff hes).mpr hget, rfl⟩

theorem pairwise_fileNames : (fileNames es).Pairwise NameLt := by
  have hsorted : (Node.filesOf es).Pairwise fun f g => List.Lex (· < ·) f.1 g.1 :=
    Node.pairwise_files hes
  rw [fileNames, List.pairwise_map]
  refine hsorted.imp_of_mem fun hf hg hlt => ?_
  have ⟨hf, hf'⟩ := get?_of_mem_filesOf hes hf
  have ⟨hg, hg'⟩ := get?_of_mem_filesOf hes hg
  exact nameLt_ofNames hf' hg' (hes.get? hf).2 (hes.get? hg).2 hlt

end FileNames

-- If no path below the origin is too long to be listed, all files below it are listed under their
-- names, each once, in the order of the names part by part. Otherwise such a path is reported.
theorem sources_complete (hd : d.WellFormed) (horigin : d.node? w.origin = some (.dir es))
    (hnames : ∀ ns content, (Node.dir es).get? ns = some (.file content) →
      ∀ n ∈ ns, '\\' ∉ n.toList) :
    ((∀ ns, ¬w.Unlisted es ns) → ∃ names, w.sources d = .ok names ∧
      (∀ name, name ∈ names ↔ ∃ ns content,
        (Node.dir es).get? ns = some (.file content) ∧ name = Path.ofNames ns) ∧
      names.Nodup ∧ names.Pairwise NameLt) ∧
    ((∃ ns, w.Unlisted es ns) → ∃ ns, w.Unlisted es ns ∧
      w.sources d = .error (.files (.unlisted (Path.join w.origin (Path.ofNames ns))))) := by
  have hes := hd.node? horigin
  obtain ⟨ns, hns, herror⟩ | ⟨hnone, hok⟩ := sources_cases hes horigin
  case inl => exact ⟨fun hnone => absurd hns (hnone ns), fun _ => ⟨ns, hns, herror⟩⟩
  case inr =>
    have hlisted : (Node.filesOf es).map (sourceName ·.1) = fileNames es :=
      List.map_congr_left fun f hf =>
        sourceName_eq (hnames f.1 f.2 (get?_of_mem_filesOf hes hf).1)
    have hpairwise := pairwise_fileNames hes
    rw [hlisted] at hok
    exact ⟨fun _ => ⟨_, hok, fun _ => mem_fileNames_iff hes, hpairwise.imp NameLt.ne, hpairwise⟩,
      fun ⟨ns, hns⟩ => absurd hns (hnone ns)⟩

-- A workspace at the root, with these entries in its origin.
def atRoot : Workspace :=
  ⟨"/"⟩

def withOrigin (es : List (String × Node)) : Disk :=
  ⟨.dir [("origin", .dir es)], []⟩

theorem node?_withOrigin (es : List (String × Node)) :
    (withOrigin es).node? atRoot.origin = some (.dir es) := by
  have hparts : Path.parts "/origin" = [""] ++ "origin" :: [] := by rfl
  have horigin : Disk.IsName "origin" := ⟨by decide, by decide, by decide, by decide⟩
  have hresolve : (withOrigin es).resolve .look "/origin" = .ok ⟨["origin"], some (.dir es)⟩ := by
    rw [Disk.resolve_eq ⟨by decide, by decide⟩ hparts (by decide)]
    calc
      _ = Disk.walk (withOrigin es).root .look Disk.maxLinks [] ["origin"] :=
        Disk.walk_skip (.inl rfl) rfl
      _ = Disk.walk _ _ _ [_] [] := Disk.walk_enter horigin rfl rfl nofun nofun
      _ = _ := by rw [Disk.walk]; rfl
  have hpath : atRoot.origin = "/origin" := by rfl
  rw [hpath, Disk.node?, hresolve]

theorem wellFormed_withOrigin (h : (Node.dir es).WellFormed) : (withOrigin es).WellFormed :=
  Node.WellFormed.dir_singleton (by decide) h

-- A directory with a file, and a file whose name goes on with less than a slash.
def mixed : List (String × Node) :=
  [("a", .dir [("b", .file .empty)]), ("a.txt", .file .empty)]

theorem wellFormed_mixed : (Node.dir mixed).WellFormed := by
  have hsorted : Ordered.Sorted mixed := List.pairwise_pair.mpr (by decide)
  refine .dir hsorted (by decide) ?_
  rw [mixed, List.forall_mem_cons, List.forall_mem_singleton]
  exact ⟨.dir_singleton (by decide) .file, .file⟩

theorem mixed_sources_complete :
    (withOrigin mixed).WellFormed ∧ (withOrigin mixed).node? atRoot.origin = some (.dir mixed) ∧
    (∀ ns content, (Node.dir mixed).get? ns = some (.file content) → ∀ n ∈ ns, '\\' ∉ n.toList) ∧
    (∀ ns, ¬atRoot.Unlisted mixed ns) ∧
    ∃ names, atRoot.sources (withOrigin mixed) = .ok names ∧
      (∀ name, name ∈ names ↔ ∃ ns content,
        (Node.dir mixed).get? ns = some (.file content) ∧ name = Path.ofNames ns) ∧
      names.Nodup ∧ names.Pairwise NameLt := by
  have hd := wellFormed_withOrigin wellFormed_mixed
  have horigin := node?_withOrigin mixed
  have hnames : ∀ ns content, (Node.dir mixed).get? ns = some (.file content) →
      ∀ n ∈ ns, '\\' ∉ n.toList := by
    intro ns content hget
    have hmem := (Node.mem_files_iff wellFormed_mixed).mpr hget
    have hfiles : (Node.dir mixed).files = [(["a", "b"], .empty), (["a.txt"], .empty)] := by rfl
    rw [hfiles, List.mem_pair, Prod.mk.injEq, Prod.mk.injEq] at hmem
    obtain ⟨rfl, -⟩ | ⟨rfl, -⟩ := hmem <;> decide
  have hnone : ∀ ns, ¬atRoot.Unlisted mixed ns := by
    intro ns hns
    have ⟨hpath, hlong⟩ := (mem_dirPaths_iff wellFormed_mixed).mpr ⟨ns, hns, rfl⟩
    have hshort : ∀ path ∈ atRoot.dirPaths mixed, path.utf8ByteSize ≤ Disk.maxPath := by decide
    exact absurd hlong (Nat.not_lt.mpr (hshort _ hpath))
  exact ⟨hd, horigin, hnames, hnone, (sources_complete hd horigin hnames).1 hnone⟩

-- Directories of one name inside of each other, with a file in the innermost.
def nested (n : String) : Nat → List (String × Node)
  | 0 => [("s.txt", .file .empty)]
  | k + 1 => [(n, .dir (nested n k))]

section Nested

variable {n : String}

theorem wellFormed_nested (hn : IsFileName n) (k : Nat) : (Node.dir (nested n k)).WellFormed := by
  induction k with
  | zero => exact .dir_singleton (by decide) .file
  | succ k ih => exact .dir_singleton hn ih

theorem get?_nested (n : String) (k : Nat) :
    (Node.dir (nested n k)).get? (List.replicate k n) = some (.dir (nested n 0)) := by
  induction k with
  | zero => rfl
  | succ k ih => simpa [nested, Node.get?, List.replicate_succ] using ih

theorem files_nested (n : String) (k : Nat) :
    (Node.dir (nested n k)).files = [(List.replicate k n ++ ["s.txt"], .empty)] := by
  induction k with
  | zero => rfl
  | succ k ih =>
    rw [Node.files, nested, Node.filesOf, ih]
    rfl

-- The path of the innermost directory has each name in it, with a slash behind all but the last.
theorem le_size_nested (n : String) (k : Nat) : (n.utf8ByteSize + 1) * k ≤
    (Path.join atRoot.origin (Path.ofNames (List.replicate k n))).utf8ByteSize + 1 := by
  have hnames :
      (n.utf8ByteSize + 1) * k ≤ (Path.ofNames (List.replicate k n)).utf8ByteSize + 1 := by
    induction k with
    | zero => exact Nat.zero_le _
    | succ k ih =>
      cases k with
      | zero => simp [Path.ofNames]
      | succ k =>
        have hslash : "/".utf8ByteSize = 1 := by decide
        rw [Nat.mul_succ, List.replicate_succ, List.replicate_succ, Path.ofNames,
          String.intercalate_cons_cons, String.utf8ByteSize_append, String.utf8ByteSize_append,
          hslash]
        rw [List.replicate_succ, Path.ofNames] at ih
        omega
  have hjoin : ∀ q, q.utf8ByteSize ≤ (Path.join atRoot.origin q).utf8ByteSize := by
    intro q
    simp only [Path.join]
    split
    case isTrue => split <;> simp [String.utf8ByteSize_append]
    case isFalse => simp [String.utf8ByteSize_append]
  exact hnames.trans (Nat.succ_le_succ (hjoin _))

end Nested

-- A name of this length.
def letters (k : Nat) : String :=
  String.ofList (List.replicate k 'a')

theorem utf8ByteSize_letters (k : Nat) : (letters k).utf8ByteSize = k := by
  induction k with
  | zero => rfl
  | succ k ih =>
    rw [letters, List.replicate_succ', String.ofList_append, String.utf8ByteSize_append, ← letters,
      ih]
    rfl

theorem not_mem_letters {c : Char} (h : c ≠ 'a') (k : Nat) : c ∉ (letters k).toList := by
  rw [letters, String.toList_ofList, List.mem_replicate]
  exact fun hc => h hc.2

theorem isFileName_letters (k : Nat) : IsFileName (letters (k + 1)) where
  ne_empty h := nomatch (utf8ByteSize_letters (k + 1)).symm.trans (congrArg String.utf8ByteSize h)
  ne_here h := not_mem_letters (c := '.') (by decide) (k + 1) (by rw [h]; decide)
  ne_above h := not_mem_letters (c := '.') (by decide) (k + 1) (by rw [h]; decide)
  no_slash := not_mem_letters (by decide) (k + 1)

-- A file below eighteen directories with such names is not listed, though no name is too long.
theorem nested_not_listed :
    (withOrigin (nested (letters 250) 18)).WellFormed ∧
    (withOrigin (nested (letters 250) 18)).node? atRoot.origin =
      some (.dir (nested (letters 250) 18)) ∧
    (∀ ns content, (Node.dir (nested (letters 250) 18)).get? ns = some (.file content) →
      ∀ n ∈ ns, '\\' ∉ n.toList) ∧
    ∀ names, atRoot.sources (withOrigin (nested (letters 250) 18)) ≠ .ok names := by
  have hes := wellFormed_nested (isFileName_letters 249) 18
  have horigin := node?_withOrigin (nested (letters 250) 18)
  refine ⟨wellFormed_withOrigin hes, horigin, fun ns content hget n hn => ?names,
    fun names hok => ?listed⟩
  case names =>
    have hmem := (Node.mem_files_iff hes).mpr hget
    rw [files_nested, List.mem_singleton, Prod.mk.injEq] at hmem
    rw [hmem.1, List.mem_append, List.mem_replicate, List.mem_singleton] at hn
    obtain ⟨-, rfl⟩ | rfl := hn
    case inl => exact not_mem_letters (by decide) 250
    case inr => decide
  case listed =>
    have hlong : atRoot.Unlisted (nested (letters 250) 18) (List.replicate 18 (letters 250)) := by
      refine ⟨List.cons_ne_nil _ _, ⟨_, get?_nested (letters 250) 18⟩, ?_⟩
      have hpath := le_size_nested (letters 250) 18
      rw [utf8ByteSize_letters] at hpath
      rw [Disk.maxPath]
      omega
    obtain ⟨ns, -, herror⟩ | ⟨hnone, -⟩ := sources_cases hes horigin
    case inl => nomatch herror.symm.trans hok
    case inr => exact hnone _ hlong

end Workspace

end Imp
