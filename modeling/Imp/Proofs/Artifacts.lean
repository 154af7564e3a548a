import Imp.Proofs.Files.Components
import Imp.Proofs.Workspace

/-!
Where artifacts stand: in the bucket of their kind, in the directory of their source. Two of them
have the same path only if they are of the same kind, and their sources have the same stem.
-/

namespace Imp

open Imp.Path (Plain parts components join)

-- A stem of a name. The last dot of the last part and what is behind it are left out, unless the
-- part starts with that dot.
inductive StemOf (name : String) : String → Prop
  | dropped {s base ext : String} {above : List String} (base_ne_empty : base ≠ "")
      (last : '.' ∉ ext.toList) (parts_name : parts name = above ++ [base ++ "." ++ ext])
      (parts_stem : parts s = above ++ [base]) : StemOf name s
  | whole {file : String} {above : List String} (no_dot : '.' ∉ file.toList.tail)
      (parts_name : parts name = above ++ [file]) : StemOf name name

section Stem

variable {cs base ext : List Char} {name s : String}

theorem stemOfFile_of_not_mem (h : '.' ∉ cs.tail) : stemOfFile cs = cs := by
  have hdrop : (cs.reverse.dropWhile (· ≠ '.')).tail = [] := by
    cases cs with
    | nil => rfl
    | cons c cs =>
      have hne : ∀ d ∈ cs.reverse, decide (d ≠ '.') = true := fun d hd =>
        decide_eq_true fun heq => h (List.mem_reverse.mp (heq ▸ hd))
      rw [List.reverse_cons, List.dropWhile_append_of_pos hne]
      by_cases hc : c = '.' <;> simp [hc]
  rw [stemOfFile, hdrop]
  rfl

theorem stemOfFile_append (hbase : base ≠ []) (hext : '.' ∉ ext) :
    stemOfFile (base ++ '.' :: ext) = base := by
  have hne : ∀ d ∈ ext.reverse, decide (d ≠ '.') = true := fun d hd =>
    decide_eq_true fun heq => hext (List.mem_reverse.mp (heq ▸ hd))
  have hdrop : ((base ++ '.' :: ext).reverse.dropWhile (· ≠ '.')).tail.reverse = base := by
    rw [List.reverse_append, List.reverse_cons, List.append_assoc,
      List.dropWhile_append_of_pos hne]
    simp
  unfold stemOfFile
  split
  case h_1 hnil => exact absurd (hdrop.symm.trans hnil) hbase
  case h_2 => exact hdrop

-- There is a dot behind the first letter of a file name, and then a last one, or there is none.
theorem not_mem_tail_or_exists (cs : List Char) :
    '.' ∉ cs.tail ∨ ∃ base ext, cs = base ++ '.' :: ext ∧ base ≠ [] ∧ '.' ∉ ext := by
  by_cases hmem : '.' ∈ cs.tail
  case neg => exact .inl hmem
  case pos =>
    obtain ⟨ext, base, hrev, hext⟩ := List.eq_append_cons_of_mem (List.mem_reverse.mpr hmem)
    have htail : cs.tail = base.reverse ++ '.' :: ext.reverse := by
      rw [← List.reverse_reverse cs.tail, hrev]
      simp
    cases cs with
    | nil => simp at htail
    | cons c cs =>
      exact .inr ⟨c :: base.reverse, ext.reverse, by simpa using htail, List.cons_ne_nil _ _,
        by simpa using hext⟩

theorem stemOf_stem (name : String) : StemOf name (stem name) := by
  obtain ⟨above, file, hname, hstem⟩ := exists_parts_stem name
  have hstem := hstem "" List.not_mem_nil
  rw [String.append_empty, String.append_empty] at hstem
  obtain hdot | ⟨base, ext, hfile, hbase, hext⟩ := not_mem_tail_or_exists file.toList
  case inl =>
    rw [stemOfFile_of_not_mem hdot, String.ofList_toList, ← hname] at hstem
    rw [Path.parts_injective hstem]
    exact .whole hdot hname
  case inr =>
    rw [hfile, stemOfFile_append hbase hext] at hstem
    refine @StemOf.dropped name _ (String.ofList base) (String.ofList ext) above ?_ ?_ ?_ hstem
    case refine_1 => simpa [String.ofList_eq_empty_iff] using hbase
    case refine_2 => simpa using hext
    case refine_3 =>
      rw [hname, ← String.ofList_toList (s := file), hfile]
      simp [← String.toList_inj]

theorem StemOf.eq_stem (h : StemOf name s) : s = stem name := by
  obtain ⟨above, file, hname, hstem⟩ := exists_parts_stem name
  have hstem := hstem "" List.not_mem_nil
  rw [String.append_empty, String.append_empty] at hstem
  cases h with
  | @dropped _ base ext above' hbase hext hparts hs =>
    obtain ⟨rfl, hfile⟩ := List.append_inj' (hparts.symm.trans hname) rfl
    obtain rfl := List.singleton_inj.mp hfile
    have hne : base.toList ≠ [] := by simpa [String.toList_eq_nil_iff] using hbase
    have hcs : (base ++ "." ++ ext).toList = base.toList ++ '.' :: ext.toList := by simp
    rw [hcs, stemOfFile_append hne hext, String.ofList_toList, ← hs] at hstem
    exact (Path.parts_injective hstem).symm
  | @whole file' above' hdot hparts =>
    obtain ⟨rfl, hfile⟩ := List.append_inj' (hparts.symm.trans hname) rfl
    obtain rfl := List.singleton_inj.mp hfile
    rw [stemOfFile_of_not_mem hdot, String.ofList_toList, ← hname] at hstem
    exact (Path.parts_injective hstem).symm

end Stem

namespace Artifact

variable {a b : Artifact} {s t : String}

theorem isEntry_bucket (a : Artifact) : Path.IsEntry a.bucket where
  ne_empty := a.isName_bucket.ne_empty
  ne_here := a.isName_bucket.ne_here
  ne_above := a.isName_bucket.ne_above

-- In one bucket, kinds are told apart by how their extensions end.
theorem eq_of_bucket (hbucket : a.bucket = b.bucket) (hlast : a.lastLetter = b.lastLetter) :
    a = b := by
  cases a <;> cases b <;> simp_all [bucket, lastLetter]

theorem suffix_inj (hbucket : a.bucket = b.bucket)
    (h : s ++ ("." ++ a.extension) = t ++ ("." ++ b.extension)) : a = b ∧ s = t := by
  have hlast : some a.lastLetter = some b.lastLetter := by
    rw [← a.getLast?_suffix s, h, b.getLast?_suffix]
  obtain rfl := eq_of_bucket hbucket (Option.some.inj hlast)
  refine ⟨rfl, ?_⟩
  rw [← String.toList_inj, String.toList_append, String.toList_append (s := t)] at h
  exact String.toList_inj.mp (List.append_cancel_right h)

end Artifact

namespace Workspace

variable {w : Workspace} {a b : Artifact} {m n : String}

-- The path of an artifact in its bucket.
def artifactName (a : Artifact) (name : String) : String :=
  stem name ++ ("." ++ a.extension)

theorem artifactPath_eq (w : Workspace) (a : Artifact) (name : String) :
    w.artifactPath a name = join (join w.root a.bucket) (artifactName a name) := by
  rw [artifactPath, artifactName, String.append_assoc]

theorem plain_artifactName (a : Artifact) (hn : Plain n) :
    Plain (artifactName a n) ∧ (parts (artifactName a n)).dropLast = (parts n).dropLast := by
  obtain ⟨above, file, hname, hstem⟩ := exists_parts_stem n
  have hparts := hstem _ a.slash_not_mem_suffix
  rw [Plain, artifactName, hparts, hname, List.dropLast_concat, List.dropLast_concat]
  refine ⟨fun p hp => ?_, rfl⟩
  obtain hp | hp := List.mem_append.mp hp
  case inl => exact hn p (hname ▸ List.mem_append_left _ hp)
  case inr =>
    have hne := @a.ne_of_dots
    rw [List.mem_singleton.mp hp]
    exact ⟨hne (.inl rfl), hne (.inr (.inl rfl)), hne (.inr (.inr rfl))⟩

theorem components_artifactPath (w : Workspace) (a : Artifact) (hn : Plain n) :
    components (w.artifactPath a n) =
      components (join w.root a.bucket) ++ parts (artifactName a n) := by
  rw [artifactPath_eq, Path.components_join a.isEntry_bucket a.slash_not_mem_bucket
    (plain_artifactName a hn).1]

theorem stem_eq_iff : stem n = stem m ↔ ∃ s, StemOf n s ∧ StemOf m s := by
  constructor
  case mp =>
    intro h
    have hm := stemOf_stem m
    rw [← h] at hm
    exact ⟨stem n, stemOf_stem n, hm⟩
  case mpr =>
    rintro ⟨_, hn, hm⟩
    exact hn.eq_stem.symm.trans hm.eq_stem

theorem eq_of_components (hn : Plain n) (hm : Plain m)
    (h : components (w.artifactPath a n) = components (w.artifactPath b m)) :
    a = b ∧ stem n = stem m := by
  obtain ⟨front, hfront⟩ := Path.exists_components_join w.root
  rw [components_artifactPath w a hn, components_artifactPath w b hm,
    hfront _ a.isEntry_bucket a.slash_not_mem_bucket,
    hfront _ b.isEntry_bucket b.slash_not_mem_bucket] at h
  simp only [List.append_assoc, List.append_cancel_left_eq, List.cons_append, List.nil_append,
    List.cons.injEq] at h
  have hname : artifactName a n = artifactName b m := Path.parts_injective h.2
  exact Artifact.suffix_inj h.1 hname

-- Paths of artifacts are equal, as texts or as what their components say, only for artifacts of one
-- kind whose sources have one stem. The path leads into the bucket of the kind, and in there to the
-- directory of the source.
theorem artifactPath_eq_iff (w : Workspace) (a b : Artifact) (hn : Plain n) (hm : Plain m) :
    (w.artifactPath a n = w.artifactPath b m ↔ a = b ∧ ∃ s, StemOf n s ∧ StemOf m s) ∧
    (components (w.artifactPath a n) = components (w.artifactPath b m) ↔
      a = b ∧ ∃ s, StemOf n s ∧ StemOf m s) ∧
    ∃ file, Plain file ∧ (parts file).dropLast = (parts n).dropLast ∧
      components (w.artifactPath a n) = components (join w.root a.bucket) ++ parts file := by
  have hpath : a = b ∧ stem n = stem m → w.artifactPath a n = w.artifactPath b m := by
    rintro ⟨rfl, hstem⟩
    rw [artifactPath, artifactPath, hstem]
  obtain ⟨hfile, hdir⟩ := plain_artifactName a hn
  simp only [← stem_eq_iff]
  refine ⟨⟨fun h => ?_, hpath⟩, ⟨eq_of_components hn hm, fun h => ?_⟩,
    artifactName a n, hfile, hdir, components_artifactPath w a hn⟩
  case refine_1 => exact eq_of_components hn hm (congrArg components h)
  case refine_2 => rw [hpath h]

-- A workspace below the current directory.
def here : Workspace :=
  ⟨"./work"⟩

-- Two sources of one stem have the same trace.
theorem versions_artifactPath_eq_iff :
    Plain "loops.d/count.v1.txt" ∧ Plain "loops.d/count.v1.md" ∧
    (here.artifactPath .trace "loops.d/count.v1.txt" =
        here.artifactPath .trace "loops.d/count.v1.md" ↔
      Artifact.trace = .trace ∧
        ∃ s, StemOf "loops.d/count.v1.txt" s ∧ StemOf "loops.d/count.v1.md" s) ∧
    (components (here.artifactPath .trace "loops.d/count.v1.txt") =
        components (here.artifactPath .trace "loops.d/count.v1.md") ↔
      Artifact.trace = .trace ∧
        ∃ s, StemOf "loops.d/count.v1.txt" s ∧ StemOf "loops.d/count.v1.md" s) ∧
    ∃ file, Plain file ∧ (parts file).dropLast = (parts "loops.d/count.v1.txt").dropLast ∧
      components (here.artifactPath .trace "loops.d/count.v1.txt") =
        components (join here.root Artifact.trace.bucket) ++ parts file :=
  have hn : Plain "loops.d/count.v1.txt" := by decide
  have hm : Plain "loops.d/count.v1.md" := by decide
  ⟨hn, hm, artifactPath_eq_iff here .trace .trace hn hm⟩

end Workspace

end Imp
