import Imp.Proofs.Except
import Imp.Proofs.Files.Components
import Imp.Proofs.Files.Resolve
import Imp.Workspace

/-!
Well-formed trees. The entries of a directory stand in the order of their names, and a path can lead
through each name. What is made, written or saved on a disk keeps its tree well-formed.
-/

namespace Imp

-- A name of an entry in a directory.
structure Path.IsFileName (n : String) : Prop extends Path.IsEntry n where
  no_slash : '/' ∉ n.toList

instance (n : String) : Decidable (Path.IsFileName n) :=
  decidable_of_iff (Path.IsEntry n ∧ '/' ∉ n.toList)
    ⟨fun ⟨h₁, h₂⟩ => ⟨h₁, h₂⟩, fun ⟨h₁, h₂⟩ => ⟨h₁, h₂⟩⟩

open Imp.Path (IsFileName)

namespace Node

inductive WellFormed : Node → Prop
  | file {content} : WellFormed (.file content)
  | link {target} : WellFormed (.link target)
  | dir {es} (sorted : Ordered.Sorted es) (named : ∀ e ∈ es, IsFileName e.1)
      (entries : ∀ e ∈ es, WellFormed e.2) : WellFormed (.dir es)

namespace WellFormed

variable {root node new : Node} {es : List (String × Node)} {ns : List String} {n : String}

theorem dir_nil : WellFormed (.dir []) :=
  .dir .nil nofun nofun

theorem dir_singleton (hn : IsFileName n) (h : node.WellFormed) : WellFormed (.dir [(n, node)]) :=
  .dir (List.pairwise_singleton ..) (List.forall_mem_singleton.mpr hn)
    (List.forall_mem_singleton.mpr h)

theorem sorted (h : WellFormed (.dir es)) : Ordered.Sorted es := by
  cases h
  assumption

theorem entry (h : WellFormed (.dir es)) (hn : es.lookup n = some node) :
    IsFileName n ∧ node.WellFormed := by
  have hmem := (Ordered.mem_iff_lookup h.sorted).mpr hn
  cases h with
  | dir _ named entries => exact ⟨named _ hmem, entries _ hmem⟩

-- What stands in a well-formed tree is well-formed, and so are the names that lead there.
theorem get? (h : root.WellFormed) (hget : root.get? ns = some node) :
    node.WellFormed ∧ ∀ n ∈ ns, IsFileName n := by
  induction ns generalizing root with
  | nil =>
    cases hget.symm.trans (get?_nil root)
    exact ⟨h, nofun⟩
  | cons n ns ih =>
    cases root with
    | file | link => nomatch hget
    | dir es =>
      obtain ⟨child, hchild, hget⟩ := Option.bind_eq_some_iff.mp hget
      have ⟨hn, hchild⟩ := h.entry hchild
      have ⟨hnode, hns⟩ := ih hchild hget
      exact ⟨hnode, List.forall_mem_cons.mpr ⟨hn, hns⟩⟩

theorem insert (h : WellFormed (.dir es)) (hn : IsFileName n) (hnode : node.WellFormed) :
    WellFormed (.dir (Ordered.insert n node es)) := by
  cases h with
  | dir sorted named entries =>
    refine .dir sorted.insert (fun e he => ?named) fun e he => ?entries
    case named =>
      obtain rfl | he := Ordered.mem_insert he
      case inl => exact hn
      case inr => exact named e he
    case entries =>
      obtain rfl | he := Ordered.mem_insert he
      case inl => exact hnode
      case inr => exact entries e he

theorem put (h : root.WellFormed) (hns : ∀ n ∈ ns, IsFileName n) (hnew : new.WellFormed) :
    (Node.put new ns root).WellFormed := by
  induction ns generalizing root with
  | nil => simpa [Node.put] using hnew
  | cons n ns ih =>
    cases root with
    | file | link => exact h
    | dir es =>
      obtain ⟨hn, hns⟩ := List.forall_mem_cons.mp hns
      refine h.insert hn (ih ?_ hns)
      cases hchild : es.lookup n with
      | none => exact dir_nil
      | some child => exact (h.entry hchild).2

end WellFormed

end Node

namespace Disk

variable {d d' : Disk} {root : Node} {t : Trail} {place : Place} {ps : List String}
  {links : Nat} {aim : Aim} {path target : String} {content : ByteArray}

theorem IsName.isFileName {p : String} (h : IsName p) (hslash : '/' ∉ p.toList) : IsFileName p where
  ne_empty := h.ne_empty
  ne_here := h.ne_here
  ne_above := h.ne_above
  no_slash := hslash

-- Only names of entries lead to the place that a walk finds.
theorem Finds.isFileName (h : Finds root links t ps place) (hroot : root.WellFormed)
    (ht : Trail.Of root t) (hps : ∀ p ∈ ps, '/' ∉ p.toList) : ∀ n ∈ place.names, IsFileName n := by
  have hnames : ∀ {t}, Trail.Of root t → ∀ n ∈ t.names, IsFileName n := fun ht =>
    (hroot.get? ht.get?_names).2
  have hconcat : ∀ {t p}, Trail.Of root t → IsName p → '/' ∉ p.toList →
      ∀ n ∈ t.names ++ [p], IsFileName n := by
    intro t p ht hp hslash n hn
    obtain hn | hn := List.mem_append.mp hn
    case inl => exact hnames ht n hn
    case inr => exact List.mem_singleton.mp hn ▸ hp.isFileName hslash
  induction h with
  | here => exact hnames ht
  | skip _ _ _ ih => exact ih ht fun p hp => hps p (List.mem_cons_of_mem _ hp)
  | up _ _ ih => exact ih ht.tail fun p hp => hps p (List.mem_cons_of_mem _ hp)
  | absent hp _ _ | link hp _ _ => exact hconcat ht hp (hps _ List.mem_cons_self)
  | @follow p ps _ target _ _ _ _ _ _ _ ih =>
    refine ih (ht.restart target).1 fun q hq => ?_
    obtain hq | hq := List.mem_append.mp hq
    case inl => exact Path.slash_not_mem_parts hq
    case inr => exact hps q (List.mem_cons_of_mem p hq)
  | @enter p _ _ _ _ _ _ _ hdir hentry _ _ ih =>
    have hchild := ht.get?_entry hdir p ▸ hentry
    exact ih (ht.enter hchild) fun q hq => hps q (List.mem_cons_of_mem p hq)

theorem exists_finds (h : d.resolve aim path = .ok place) :
    ∃ t, Trail.Of d.root t ∧ Finds d.root maxLinks t (Path.parts path) place := by
  simp only [resolve] at h
  split at h
  case isTrue => cases h
  split at h
  case isTrue => cases h
  split at h
  case isTrue => cases h
  split at h
  case isTrue => exact ⟨[], trivial, finds_of_walk h⟩
  case isFalse =>
    split at h
    case h_1 => cases h
    case h_2 t ht => exact ⟨t, (Trail.Of.of_extend? (t := []) trivial ht).1, finds_of_walk h⟩

-- The tree of a disk is well-formed.
def WellFormed (d : Disk) : Prop :=
  d.root.WellFormed

namespace WellFormed

theorem node? (h : d.WellFormed) {node : Node} (hnode : d.node? path = some node) :
    node.WellFormed := by
  rw [Disk.node?] at hnode
  split at hnode
  case h_1 p hp =>
    obtain ⟨t, ht, hfinds⟩ := exists_finds hp
    exact (Node.WellFormed.get? h ((hfinds.node_eq ht).symm.trans hnode)).1
  case h_2 => nomatch hnode

theorem put (h : d.WellFormed) (hp : d.resolve aim path = .ok place) {new : Node}
    (hnew : new.WellFormed) : (d.put place.names new).WellFormed := by
  obtain ⟨t, ht, hfinds⟩ := exists_finds hp
  have hnames := hfinds.isFileName h ht fun _ hp => Path.slash_not_mem_parts hp
  exact Node.WellFormed.put h hnames hnew

theorem makeDir (h : d.WellFormed) (hd : d.makeDir path = .ok d') : d'.WellFormed := by
  simp only [Disk.makeDir, bind_eq_ok] at hd
  obtain ⟨p, hp, hd⟩ := hd
  split at hd
  case h_1 => nomatch hd
  case h_2 =>
    cases hd
    exact h.put hp .dir_nil

theorem makeLink (h : d.WellFormed) (hd : d.makeLink path target = .ok d') : d'.WellFormed := by
  simp only [Disk.makeLink, bind_eq_ok] at hd
  obtain ⟨p, hp, hd⟩ := hd
  split at hd
  case h_1 => nomatch hd
  case h_2 =>
    cases hd
    exact h.put hp .link

theorem write (h : d.WellFormed) (hd : d.write path content = .ok d') : d'.WellFormed := by
  simp only [Disk.write, bind_eq_ok] at hd
  obtain ⟨p, hp, hd⟩ := hd
  split at hd
  case h_1 => nomatch hd
  case h_2 =>
    cases hd
    exact h.put hp .file

theorem makeDirs (h : d.WellFormed) (paths : List String) : (d.makeDirs paths).1.WellFormed := by
  induction paths with
  | nil => exact h
  | cons path above ih =>
    rw [Disk.makeDirs]
    split
    case h_1 d' hd => exact h.makeDir hd
    case h_2 =>
      split
      case h_1 d' e hd => rwa [hd] at ih
      case h_2 d' hd =>
        rw [hd] at ih
        split
        case h_1 hd' => exact WellFormed.makeDir ih hd'
        case h_2 => exact ih
    case h_3 => exact h

theorem save (h : d.WellFormed) (w : Workspace) (a : Artifact) (name contents : String) :
    (w.save d a name contents).1.WellFormed := by
  have hparents := h.makeDirs (Path.ancestors (w.artifactPath a name)).tail
  rw [← makeParents] at hparents
  unfold Workspace.save
  dsimp only
  split
  case h_1 d' e hd => rwa [hd] at hparents
  case h_2 d' hd =>
    rw [hd] at hparents
    split
    case h_1 => exact hparents
    case h_2 hd' => exact WellFormed.write hparents hd'

end WellFormed

end Disk

end Imp
