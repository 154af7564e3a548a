import Imp.Proofs.Files.Walk

/-!
Where a path is looked up from, and which paths are refused for what they are.
-/

namespace Imp

namespace Disk

variable {d : Disk} {aim : Aim} {path : String} {place : Place}

-- A path that is not refused for what it is.
structure Admissible (path : String) : Prop where
  no_nul : '\x00' ∉ path.toList
  short : path.utf8ByteSize ≤ maxPath

theorem admissible_of_resolve (h : d.resolve aim path = .ok place) : Admissible path := by
  unfold resolve at h
  split at h
  case isTrue => nomatch h
  case isFalse hnul =>
    split at h
    case isTrue => nomatch h
    case isFalse =>
      split at h
      case isTrue => nomatch h
      case isFalse hshort => exact ⟨hnul, Nat.not_lt.mp hshort⟩

theorem resolve_ne_notFound (h : ¬Admissible path) (hne : path ≠ "") :
    d.resolve aim path ≠ .error .notFound := by
  unfold resolve
  split
  case isTrue => nofun
  case isFalse hnul =>
    have hshort : maxPath < path.utf8ByteSize :=
      Nat.not_le.mp fun hshort => h ⟨hnul, hshort⟩
    simp [hne, hshort]

-- The directory that a path starts from with these parts in front of a name.
def begin (d : Disk) (base : List String) : List String :=
  if base.head? = some "" then [] else d.current

def begin? (d : Disk) (base : List String) : Option Trail :=
  if base.head? = some "" then some [] else Trail.extend? d.root [] d.current

variable {base ps : List String} {b : String}

theorem ne_empty_of_parts (hparts : Path.parts path = base ++ b :: ps) (hb : b ≠ "") :
    path ≠ "" := by
  rintro rfl
  have h : base ++ b :: ps = [""] := hparts.symm
  cases base <;> simp_all

theorem of_begin? {t : Trail} (h : d.begin? base = some t) :
    Trail.Of d.root t ∧ t.names = d.begin base := by
  unfold begin? at h
  unfold begin
  split at h
  case isTrue hbase =>
    cases h
    exact ⟨trivial, (if_pos hbase).symm⟩
  case isFalse hbase =>
    have ⟨hof, hnames⟩ := Trail.Of.of_extend? (t := []) trivial h
    exact ⟨hof, hnames.trans (if_neg hbase).symm⟩

theorem exists_begin? {node : Node} (h : d.root.get? (d.begin base) = some node) :
    ∃ t, d.begin? base = some t := by
  unfold begin at h
  unfold begin?
  split at h
  case isTrue hbase => exact ⟨[], if_pos hbase⟩
  case isFalse hbase =>
    obtain ⟨t, ht⟩ := Trail.Of.exists_extend? (t := []) trivial h
    exact ⟨t, (if_neg hbase).trans ht⟩

theorem resolve_eq (hpath : Admissible path) (hparts : Path.parts path = base ++ b :: ps)
    (hb : b ≠ "") : d.resolve aim path =
      match d.begin? base with
      | none => .error .notFound
      | some t => walk d.root aim maxLinks t (base ++ b :: ps) := by
  have hempty : path.isEmpty = false := by simpa using ne_empty_of_parts hparts hb
  have hhead := Path.isAbsolute_iff_head? hb hparts
  rw [resolve, if_neg hpath.no_nul, hempty, if_neg Bool.false_ne_true,
    if_neg (Nat.not_lt.mpr hpath.short), hparts, begin?]
  by_cases hbase : base.head? = some ""
  case pos => rw [if_pos (hhead.mpr hbase), if_pos hbase]
  case neg =>
    cases Trail.extend? d.root [] d.current <;>
      simp only [if_neg (mt hhead.mp hbase), if_neg hbase]

-- A path whose parts lead to a directory is resolved to it.
theorem Leads.resolve_look {links : Nat} {there : List String} {es : List (String × Node)}
    (h : Leads d.root maxLinks (d.begin base) (base ++ b :: ps) links there)
    (hpath : Admissible path) (hparts : Path.parts path = base ++ b :: ps) (hb : b ≠ "")
    (hdir : d.root.get? there = some (.dir es)) :
    d.resolve .look path = .ok ⟨there, some (.dir es)⟩ := by
  obtain ⟨_, hbegin⟩ := h.exists_dir_here hdir
  obtain ⟨t, ht⟩ := exists_begin? hbegin
  have ⟨hof, hnames⟩ := of_begin? ht
  obtain ⟨u, hu, rfl, heq⟩ := h.walk_eq hof hnames
  have hwalk := heq .look [] (.inl rfl)
  rw [List.append_nil] at hwalk
  rw [resolve_eq hpath hparts hb, ht]
  refine hwalk.trans ?_
  rw [walk, hu.node_eq hdir]

-- A path that is resolved is walked from where its parts begin.
theorem resolve_eq_ok_iff : d.resolve aim path = .ok place ↔ Admissible path ∧ path ≠ "" ∧
    ∃ t, d.begin? (Path.parts path) = some t ∧
      walk d.root aim maxLinks t (Path.parts path) = .ok place := by
  by_cases hpath : Admissible path
  case neg => exact ⟨fun h => absurd (admissible_of_resolve h) hpath, fun h => absurd h.1 hpath⟩
  case pos =>
    by_cases hne : path = ""
    case pos => simp [resolve, hne]
    case neg =>
      have hempty : path.isEmpty = false := by simpa using hne
      rw [resolve, if_neg hpath.no_nul, hempty, if_neg Bool.false_ne_true,
        if_neg (Nat.not_lt.mpr hpath.short), begin?]
      by_cases habs : Path.isAbsolute path
      case pos => simp [habs, (Path.isAbsolute_iff_head?_parts hne).mp habs, hpath, hne]
      case neg =>
        have hhead := mt (Path.isAbsolute_iff_head?_parts hne).mpr habs
        rw [if_neg habs, if_neg hhead]
        cases Trail.extend? d.root [] d.current <;> simp [hpath, hne]

-- What stands at a path. A link there is not followed.
def nodeAt? (d : Disk) (path : String) : Option Node :=
  match d.resolve .make path with
  | .ok p => p.node
  | .error _ => none

end Disk

end Imp
