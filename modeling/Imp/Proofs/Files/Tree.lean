import Imp.Files.Disk
import Imp.Proofs.Ordered

/-!
What is found in a tree after a node has been put into it.
-/

namespace Imp

namespace Node

variable {root root' root'' node new : Node} {ns ms ks : List String} {n target : String}
  {es : List (String × Node)}

@[simp]
theorem get?_nil (node : Node) : node.get? [] = some node := by
  cases node <;> rfl

theorem get?_append : root.get? (ns ++ ms) = (root.get? ns).bind (get? ms) := by
  induction ns generalizing root with
  | nil => simp
  | cons n ns ih =>
    cases root with
    | dir es => cases h : es.lookup n <;> simp [get?, h, ih]
    | file | link => rfl

@[simp]
theorem get?_dir_singleton : (dir es).get? [n] = es.lookup n := by
  cases h : es.lookup n <;> simp [get?, h]

theorem exists_dir_of_get?_cons (h : root.get? (ns ++ n :: ms) = some node) :
    ∃ es, root.get? ns = some (.dir es) := by
  rw [get?_append, Option.bind_eq_some_iff] at h
  have ⟨above, habove, h⟩ := h
  cases above with
  | dir es => exact ⟨es, habove⟩
  | file | link => nomatch h

theorem get?_put_append (h : root.get? ms = some node) :
    (put new (ms ++ ks) root).get? ms = some (put new ks node) := by
  induction ms generalizing root with
  | nil =>
    cases h.symm.trans (get?_nil root)
    simp
  | cons m ms ih =>
    cases root with
    | dir es =>
      obtain ⟨child, hchild, h⟩ := Option.bind_eq_some_iff.mp h
      simp [put, get?, Ordered.lookup_insert_self, hchild, ih h]
    | file | link => nomatch h

-- Elsewhere nothing changes.
theorem get?_put_elsewhere (h : ¬ns <+: ms) (h' : ¬ms <+: ns) :
    (put new ns root).get? ms = root.get? ms := by
  induction ns generalizing ms root with
  | nil => exact absurd (List.nil_prefix) h
  | cons n ns ih =>
    cases ms with
    | nil => exact absurd (List.nil_prefix) h'
    | cons m ms =>
      cases root with
      | file | link => rfl
      | dir es =>
        by_cases hm : m = n
        case neg => simp [put, get?, Ordered.lookup_insert_of_ne hm]
        case pos =>
          subst hm
          rw [List.cons_prefix_cons, not_and] at h h'
          have hne : ms ≠ [] := by
            rintro rfl
            exact h' rfl List.nil_prefix
          simp only [put, get?, Ordered.lookup_insert_self, Option.bind_some, ih (h rfl) (h' rfl)]
          cases es.lookup m with
          | some child => rfl
          | none =>
            obtain ⟨k, ks, rfl⟩ := List.exists_cons_of_ne_nil hne
            rfl

-- Below a directory all is put and found from there.
theorem get?_put_below (h : root.get? ns = some (.dir es)) (ks ms : List String) :
    (put new (ns ++ ks) root).get? (ns ++ ms) = (put new ks (.dir es)).get? ms := by
  rw [get?_append, get?_put_append h]
  rfl

-- A directory that is missing on the way to where a node is put need not be made before.
theorem put_put_dir (h : root.get? ns = none) (ks : List String) :
    put new (ns ++ ks) (put (.dir []) ns root) = put new (ns ++ ks) root := by
  induction ns generalizing root with
  | nil => simp at h
  | cons n ns ih =>
    cases root with
    | file | link => rfl
    | dir es =>
      simp only [List.cons_append, put, Ordered.lookup_insert_self, Option.getD_some,
        Ordered.insert_insert]
      cases ns with
      | nil =>
        have hnone : es.lookup n = none := get?_dir_singleton.symm.trans h
        simp [put, hnone]
      | cons m ns =>
        rw [ih]
        cases hchild : es.lookup n with
        | none => rfl
        | some child => simpa [get?, hchild] using h

def Linkless (node : Node) : Prop :=
  ∀ ns target, node.get? ns ≠ some (.link target)

theorem linkless_dir_nil : Linkless (dir []) := by
  intro ns target h
  cases ns <;> nomatch h

theorem linkless_file (content : ByteArray) : Linkless (file content) := by
  intro ns target h
  cases ns <;> nomatch h

theorem linkless_dir (h : ∀ e ∈ es, Linkless e.2) : Linkless (dir es) := by
  intro ns target hget
  cases ns with
  | nil => nomatch hget
  | cons n ns =>
    obtain ⟨child, hchild, hlink⟩ := Option.bind_eq_some_iff.mp hget
    exact h _ (Ordered.mem_of_lookup hchild) ns target hlink

theorem get?_of_get?_put_link (hnew : new.Linkless)
    (h : (put new ns root).get? ms = some (.link target)) : root.get? ms = some (.link target) := by
  induction ns generalizing ms root with
  | nil => exact absurd h (hnew ms target)
  | cons n ns ih =>
    cases root with
    | file | link => exact h
    | dir es =>
      cases ms with
      | nil => nomatch h
      | cons m ms =>
        by_cases hm : m = n
        case neg =>
          simpa only [get?, put, Ordered.lookup_insert_of_ne hm] using h
        case pos =>
          subst hm
          simp only [put, get?, Ordered.lookup_insert_self, Option.bind_some] at h
          have h := ih h
          cases hchild : es.lookup m with
          | some child => simpa [get?, hchild] using h
          | none => exact absurd (by simpa [hchild] using h) (linkless_dir_nil ms target)

def IsFile (node : Node) : Prop :=
  ∃ content, node = .file content

-- Directories and links stay where they are.
structure Grows (root root' : Node) : Prop where
  dir : ∀ {ns es}, root.get? ns = some (.dir es) → ∃ es', root'.get? ns = some (.dir es')
  link : ∀ {ns t}, root.get? ns = some (.link t) → root'.get? ns = some (.link t)

namespace Grows

theorem refl (root : Node) : Grows root root where
  dir h := ⟨_, h⟩
  link h := h

theorem trans (h : Grows root root') (h' : Grows root' root'') : Grows root root'' where
  dir hd := have ⟨_, hd⟩ := h.dir hd; h'.dir hd
  link hl := h'.link (h.link hl)

-- What is no file is in the way of what is put in the place of one.
theorem get?_put_cases (hns : ∀ node, root.get? ns = some node → node.IsFile)
    (h : root.get? ms = some node) (hnode : ¬node.IsFile) (new : Node) :
    (put new ns root).get? ms = some node ∨
      ∃ k ks, (put new ns root).get? ms = some (put new (k :: ks) node) := by
  by_cases hms : ms <+: ns
  case pos =>
    obtain ⟨ks, rfl⟩ := hms
    have hput : (put new (ms ++ ks) root).get? ms = some (put new ks node) := get?_put_append h
    cases ks with
    | nil => exact absurd (hns node (by simpa using h)) hnode
    | cons k ks => exact .inr ⟨k, ks, hput⟩
  case neg =>
    by_cases hpre : ns <+: ms
    case neg => exact .inl ((get?_put_elsewhere hpre hms).trans h)
    case pos =>
      obtain ⟨ks, rfl⟩ := hpre
      rw [get?_append, Option.bind_eq_some_iff] at h
      obtain ⟨above, habove, h⟩ := h
      obtain ⟨content, rfl⟩ := hns above habove
      cases ks with
      | nil => exact absurd (by simp) hms
      | cons => nomatch h

theorem put (hns : ∀ node, root.get? ns = some node → node.IsFile) (new : Node) :
    Grows root (Node.put new ns root) where
  dir {ms es} h := by
    obtain hput | ⟨k, ks, hput⟩ := get?_put_cases hns h (by simp [IsFile]) new
    case inl => exact ⟨es, hput⟩
    case inr => exact ⟨_, hput⟩
  link h := by
    obtain hput | ⟨k, ks, hput⟩ := get?_put_cases hns h (by simp [IsFile]) new <;>
      exact hput

end Grows

end Node

end Imp
