import Imp.Proofs.Files.Path
import Imp.Proofs.Files.Tree

/-!
Where paths lead, in a tree and in one that has grown out of it.

The front of a path leads from one directory to another. It does so in a tree with more in it as
well, and what comes behind it in the path is looked up from there.
-/

namespace Imp

namespace Disk

-- A part of a path that is looked up in a directory.
structure IsName (p : String) : Prop where
  ne_empty : p ≠ ""
  ne_here : p ≠ "."
  ne_above : p ≠ ".."
  short : p.utf8ByteSize ≤ maxName

-- From a directory and with so many links left, the parts of a path lead to another directory.
inductive Leads (root : Node) : Nat → List String → List String → Nat → List String → Prop
  | done {links here} : Leads root links here [] links here
  | skip {p ps es links links' here there} : p = "" ∨ p = "." → root.get? here = some (.dir es) →
      Leads root links here ps links' there → Leads root links here (p :: ps) links' there
  | up {ps es links links' here there} : root.get? here = some (.dir es) →
      Leads root links here.dropLast ps links' there →
      Leads root links here (".." :: ps) links' there
  | enter {p ps es links links' here there} : IsName p →
      root.get? (here ++ [p]) = some (.dir es) →
      Leads root links (here ++ [p]) ps links' there → Leads root links here (p :: ps) links' there
  | follow {p ps target links links' here there} : IsName p →
      root.get? (here ++ [p]) = some (.link target) →
      Leads root links (if Path.isAbsolute target then [] else here) (Path.parts target ++ ps)
        links' there →
      Leads root (links + 1) here (p :: ps) links' there

-- What a walk finds that comes to its end.
inductive Finds (root : Node) : Nat → Trail → List String → Place → Prop
  | here {links t} : Finds root links t [] ⟨Trail.names t, some (Trail.node root t)⟩
  | skip {p ps es links t place} : p = "" ∨ p = "." → Trail.node root t = .dir es →
      Finds root links t ps place → Finds root links t (p :: ps) place
  | up {ps es links t place} : Trail.node root t = .dir es →
      Finds root links t.tail ps place → Finds root links t (".." :: ps) place
  | absent {p es links t} : IsName p → Trail.node root t = .dir es → es.lookup p = none →
      Finds root links t [p] ⟨Trail.names t ++ [p], none⟩
  | link {p es target links t} : IsName p → Trail.node root t = .dir es →
      es.lookup p = some (.link target) →
      Finds root links t [p] ⟨Trail.names t ++ [p], some (.link target)⟩
  | follow {p ps es target links t place} : IsName p → Trail.node root t = .dir es →
      es.lookup p = some (.link target) →
      Finds root links (if Path.isAbsolute target then [] else t) (Path.parts target ++ ps) place →
      Finds root (links + 1) t (p :: ps) place
  | enter {p ps es child links t place} : IsName p → Trail.node root t = .dir es →
      es.lookup p = some child → (∀ target, child ≠ .link target) →
      Finds root links ((p, child) :: t) ps place → Finds root links t (p :: ps) place

variable {root root' : Node} {t u : Trail} {ps qs ns here there : List String} {p target : String}
  {links links' : Nat} {aim : Aim} {place : Place} {es : List (String × Node)}

theorem isName_of_not (h : ¬(p = "" ∨ p = ".")) (h' : ¬p = "..")
    (hshort : ¬maxName < p.utf8ByteSize) : IsName p where
  ne_empty hp := h (.inl hp)
  ne_here hp := h (.inr hp)
  ne_above := h'
  short := Nat.not_lt.mp hshort

namespace Trail

-- Each step of a trail leads to an entry of the directory before it.
def Of (root : Node) : Trail → Prop
  | [] => True
  | (n, child) :: t =>
    Of root t ∧ ∃ es, Trail.node root t = .dir es ∧ es.lookup n = some child

@[simp]
theorem names_cons (n : String) (child : Node) (t : Trail) :
    names ((n, child) :: t) = t.names ++ [n] := by
  simp [names]

theorem names_tail (t : Trail) : names t.tail = t.names.dropLast := by
  cases t with
  | nil => rfl
  | cons e t => simp [names]

namespace Of

theorem get?_names (h : Of root t) : root.get? t.names = some (t.node root) := by
  induction t with
  | nil => simp [names, node]
  | cons e t ih =>
    obtain ⟨ht, es, hes, hchild⟩ := h
    rw [names_cons, Node.get?_append, ih ht, hes]
    simp [hchild, node]

theorem tail (h : Of root t) : Of root t.tail := by
  cases t with
  | nil => trivial
  | cons e t => exact h.1

theorem node_eq (h : Of root t) {node : Node} (hnode : root.get? t.names = some node) :
    t.node root = node :=
  Option.some.inj (h.get?_names.symm.trans hnode)

theorem get?_entry (h : Of root t) (hes : t.node root = .dir es) (p : String) :
    root.get? (t.names ++ [p]) = es.lookup p := by
  rw [Node.get?_append, h.get?_names, hes]
  simp

theorem enter {child : Node} (h : Of root t) (hchild : root.get? (t.names ++ [p]) = some child) :
    Of root ((p, child) :: t) := by
  obtain ⟨es, hes⟩ := Node.exists_dir_of_get?_cons hchild
  have hes := h.node_eq hes
  exact ⟨h, es, hes, h.get?_entry hes p ▸ hchild⟩

theorem restart (h : Of root t) (target : String) :
    Of root (if Path.isAbsolute target then [] else t) ∧
      names (if Path.isAbsolute target then [] else t) =
        if Path.isAbsolute target then [] else t.names := by
  by_cases habs : Path.isAbsolute target
  case pos => simp [habs, Of, names]
  case neg => simp [habs, h]

theorem of_extend? (ht : Of root t) (h : extend? root t ns = some u) :
    Of root u ∧ u.names = t.names ++ ns := by
  induction ns generalizing t with
  | nil =>
    cases h
    simpa using ht
  | cons n ns ih =>
    simp only [extend?] at h
    split at h
    case h_1 es hes =>
      obtain ⟨child, hchild, h⟩ := Option.bind_eq_some_iff.mp h
      simpa using ih (t := (n, child) :: t) ⟨ht, es, hes, hchild⟩ h
    case h_2 => nomatch h

theorem exists_extend? {node : Node} (ht : Of root t)
    (h : root.get? (t.names ++ ns) = some node) : ∃ u, extend? root t ns = some u := by
  induction ns generalizing t with
  | nil => exact ⟨t, rfl⟩
  | cons n ns ih =>
    obtain ⟨es, hes⟩ := Node.exists_dir_of_get?_cons h
    have hes := ht.node_eq hes
    rw [List.append_cons] at h
    cases hchild : es.lookup n with
    | none =>
      rw [Node.get?_append, ht.get?_entry hes, hchild] at h
      nomatch h
    | some child =>
      obtain ⟨u, hu⟩ := ih (t := (n, child) :: t) ⟨ht, es, hes, hchild⟩ (by simpa using h)
      exact ⟨u, by simp [extend?, hes, hchild, hu]⟩

end Of

end Trail

namespace Leads

theorem grows (h : Leads root links here ps links' there) (hroot : root.Grows root') :
    Leads root' links here ps links' there := by
  induction h with
  | done => exact .done
  | skip hp hdir _ ih => exact .skip hp (hroot.dir hdir).choose_spec ih
  | up hdir _ ih => exact .up (hroot.dir hdir).choose_spec ih
  | enter hp hdir _ ih => exact .enter hp (hroot.dir hdir).choose_spec ih
  | follow hp hlink _ ih => exact .follow hp (hroot.link hlink) ih

theorem exists_dir_here (h : Leads root links here ps links' there)
    (hthere : root.get? there = some (.dir es)) : ∃ es, root.get? here = some (.dir es) := by
  cases h with
  | done => exact ⟨es, hthere⟩
  | skip _ hdir _ | up hdir _ => exact ⟨_, hdir⟩
  | enter _ hdir _ => exact Node.exists_dir_of_get?_cons hdir
  | follow _ hlink _ => exact Node.exists_dir_of_get?_cons hlink

end Leads

section Walk

theorem walk_skip (hp : p = "" ∨ p = ".") (hdir : t.node root = .dir es) :
    walk root aim links t (p :: ps) = walk root aim links t ps := by
  rw [walk, hdir]
  simp only [if_pos hp]

theorem walk_up (hdir : t.node root = .dir es) :
    walk root aim links t (".." :: ps) = walk root aim links t.tail ps := by
  rw [walk, hdir]
  simp

variable (hp : IsName p) (hdir : t.node root = .dir es)

include hp hdir

theorem walk_absent (hentry : es.lookup p = none) (hps : aim = .write → ¬Path.isOnlySlashes ps) :
    walk root aim links t (p :: ps) =
      if ps.isEmpty then .ok ⟨t.names ++ [p], none⟩ else .error .notFound := by
  rw [walk, hdir]
  simp only [hp.ne_empty, hp.ne_here, hp.ne_above, or_self, if_false, hentry,
    if_neg (not_and.mpr hps), if_neg (Nat.not_lt.mpr hp.short)]

theorem walk_enter {child : Node} (hentry : es.lookup p = some child)
    (hlink : ∀ target, child ≠ .link target) (hps : aim = .write → ¬Path.isOnlySlashes ps) :
    walk root aim links t (p :: ps) = walk root aim links ((p, child) :: t) ps := by
  rw [walk, hdir]
  simp only [hp.ne_empty, hp.ne_here, hp.ne_above, or_self, if_false, hentry,
    if_neg (not_and.mpr hps), if_neg (Nat.not_lt.mpr hp.short)]

theorem walk_follow (hentry : es.lookup p = some (.link target)) (hend : aim = .make → ps ≠ [])
    (hps : aim = .write → ¬Path.isOnlySlashes ps) :
    walk root aim (links + 1) t (p :: ps) =
      walk root aim links (if Path.isAbsolute target then [] else t) (Path.parts target ++ ps) := by
  have hstop : ¬(ps.isEmpty && aim = .make) := by
    rw [Bool.and_eq_true, List.isEmpty_iff, decide_eq_true_eq, and_comm]
    exact not_and.mpr hend
  rw [walk, hdir]
  simp only [hp.ne_empty, hp.ne_here, hp.ne_above, or_self, if_false, hentry,
    if_neg (not_and.mpr hps), if_neg (Nat.not_lt.mpr hp.short), if_neg hstop]

theorem walk_link (hentry : es.lookup p = some (.link target)) :
    walk root .make links t [p] = .ok ⟨t.names ++ [p], some (.link target)⟩ := by
  rw [walk, hdir]
  simp [hp.ne_empty, hp.ne_here, hp.ne_above, hentry, Nat.not_lt.mpr hp.short]

theorem walk_make : walk root .make links t [p] = .ok ⟨t.names ++ [p], es.lookup p⟩ := by
  have hps : Aim.make = .write → ¬Path.isOnlySlashes [] := by simp
  cases hentry : es.lookup p with
  | none => exact walk_absent hp hdir hentry hps
  | some child =>
    cases child with
    | link target => exact walk_link hp hdir hentry
    | file | dir =>
      refine (walk_enter hp hdir hentry (by simp) hps).trans ?_
      rw [walk, Trail.names_cons]
      rfl

end Walk

theorem not_isOnlySlashes (hqs : ∃ q ∈ qs, q ≠ "") : ¬Path.isOnlySlashes (ps ++ qs) := by
  have ⟨q, hq, hne⟩ := hqs
  simp only [Path.isOnlySlashes, Bool.and_eq_true, not_and, List.all_eq_true]
  exact fun _ h => hne (by simpa using h q (List.mem_append_right ps hq))

-- What comes behind the parts that lead to a directory is looked up from there.
theorem Leads.walk_eq (h : Leads root links here ps links' there) (ht : Trail.Of root t)
    (hnames : t.names = here) :
    ∃ u, Trail.Of root u ∧ u.names = there ∧ ∀ aim qs, aim = .look ∨ (∃ q ∈ qs, q ≠ "") →
      walk root aim links t (ps ++ qs) = walk root aim links' u qs := by
  have hmake {aim : Aim} {ps qs : List String} (hqs : aim = .look ∨ ∃ q ∈ qs, q ≠ "") :
      aim = .make → ps ++ qs ≠ [] := by
    rintro rfl h
    simp [(List.append_eq_nil_iff.mp h).2] at hqs
  have hwrite {aim : Aim} {ps qs : List String} (hqs : aim = .look ∨ ∃ q ∈ qs, q ≠ "") :
      aim = .write → ¬Path.isOnlySlashes (ps ++ qs) := by
    rintro rfl
    exact not_isOnlySlashes (hqs.resolve_left nofun)
  induction h generalizing t with
  | done => exact ⟨t, ht, hnames, fun _ _ _ => rfl⟩
  | skip hp hdir _ ih =>
    obtain ⟨u, hu, hthere, heq⟩ := ih ht hnames
    have hdir := ht.node_eq (hnames ▸ hdir)
    exact ⟨u, hu, hthere, fun aim qs hqs => (walk_skip hp hdir).trans (heq aim qs hqs)⟩
  | up hdir _ ih =>
    obtain ⟨u, hu, hthere, heq⟩ := ih ht.tail (by rw [Trail.names_tail, hnames])
    have hdir := ht.node_eq (hnames ▸ hdir)
    exact ⟨u, hu, hthere, fun aim qs hqs => (walk_up hdir).trans (heq aim qs hqs)⟩
  | enter hp hchild _ ih =>
    obtain ⟨es, hdir⟩ := Node.exists_dir_of_get?_cons hchild
    subst hnames
    have hdir := ht.node_eq hdir
    obtain ⟨u, hu, hthere, heq⟩ := ih (ht.enter hchild) (Trail.names_cons _ _ t)
    refine ⟨u, hu, hthere, fun aim qs hqs => .trans ?_ (heq aim qs hqs)⟩
    exact walk_enter hp hdir (ht.get?_entry hdir _ ▸ hchild) nofun (hwrite hqs)
  | @follow p ps target links links' here there hp hlink _ ih =>
    obtain ⟨es, hdir⟩ := Node.exists_dir_of_get?_cons hlink
    subst hnames
    have hdir := ht.node_eq hdir
    have ⟨hof, hstart⟩ := ht.restart target
    obtain ⟨u, hu, hthere, heq⟩ := ih hof hstart
    refine ⟨u, hu, hthere, fun aim qs hqs => .trans ?_ (heq aim qs hqs)⟩
    rw [List.append_assoc]
    exact walk_follow hp hdir (ht.get?_entry hdir _ ▸ hlink) (hmake hqs) (hwrite hqs)

theorem finds_of_walk (h : walk root aim links t ps = .ok place) : Finds root links t ps place := by
  fun_induction walk root aim links t ps with
  | case1 => exact Except.ok.inj h ▸ .here
  | case2 links t p ps es hdir hp ih => exact .skip hp hdir (ih h)
  | case3 links t ps es hdir _ ih => exact .up hdir (ih h)
  | case4 | case5 | case7 | case9 | case12 => nomatch h
  | case6 links t p ps es hdir h₁ h₂ _ h₃ hentry hps =>
    cases List.isEmpty_iff.mp hps
    exact Except.ok.inj h ▸ .absent (isName_of_not h₁ h₂ h₃) hdir hentry
  | case8 links t p ps es hdir h₁ h₂ _ h₃ target hentry hps =>
    cases List.isEmpty_iff.mp (Bool.and_eq_true_iff.mp hps).1
    exact Except.ok.inj h ▸ .link (isName_of_not h₁ h₂ h₃) hdir hentry
  | case10 t p ps es hdir h₁ h₂ _ h₃ target hentry _ links ih =>
    exact .follow (isName_of_not h₁ h₂ h₃) hdir hentry (ih h)
  | case11 links t p ps es hdir h₁ h₂ _ h₃ child hlink hentry ih =>
    exact .enter (isName_of_not h₁ h₂ h₃) hdir hentry hlink (ih h)

namespace Finds

theorem exists_dir (h : Finds root links t ps place) (hps : ps ≠ []) :
    ∃ es, t.node root = .dir es := by
  cases h with
  | here => exact absurd rfl hps
  | skip _ hdir _ | up hdir _ | absent _ hdir _ | link _ hdir _ | follow _ hdir _ _
  | enter _ hdir _ _ _ => exact ⟨_, hdir⟩

-- A place holds the node that its names lead to.
theorem node_eq (h : Finds root links t ps place) (ht : Trail.Of root t) :
    place.node = root.get? place.names := by
  induction h with
  | here => exact ht.get?_names.symm
  | skip _ _ _ ih => exact ih ht
  | up _ _ ih => exact ih ht.tail
  | absent _ hdir hentry | link _ hdir hentry => rw [ht.get?_entry hdir, hentry]
  | @follow p ps es target _ _ _ _ hdir _ _ ih => exact ih (ht.restart target).1
  | @enter p ps es child _ t _ _ hdir hentry _ _ ih =>
    exact ih (ht.enter (ht.get?_entry hdir p ▸ hentry))

-- The parts that a walk starts with lead to a directory.
theorem exists_leads {rest : List String} (h : Finds root links t rest place)
    (ht : Trail.Of root t) (hrest : rest = ps ++ qs) (hqs : qs ≠ []) :
    ∃ links' there es, Leads root links t.names ps links' there ∧
      root.get? there = some (.dir es) := by
  have hat : ∀ {t : Trail} {es}, Trail.Of root t → t.node root = .dir es →
      root.get? t.names = some (.dir es) := fun ht hdir => hdir ▸ ht.get?_names
  induction h generalizing ps with
  | here => exact absurd (List.append_eq_nil_iff.mp hrest.symm).2 hqs
  | absent _ hdir _ | link _ hdir _ =>
    obtain ⟨rfl, -⟩ | ⟨ps, -, h⟩ := List.cons_eq_append_iff.mp hrest
    case inl => exact ⟨_, _, _, .done, hat ht hdir⟩
    case inr => exact absurd (List.append_eq_nil_iff.mp h.symm).2 hqs
  | skip hp hdir _ ih =>
    obtain ⟨rfl, -⟩ | ⟨ps, rfl, h⟩ := List.cons_eq_append_iff.mp hrest
    case inl => exact ⟨_, _, _, .done, hat ht hdir⟩
    case inr =>
      obtain ⟨links', there, es, hleads, hthere⟩ := ih ht h
      exact ⟨links', there, es, .skip hp (hat ht hdir) hleads, hthere⟩
  | up hdir _ ih =>
    obtain ⟨rfl, -⟩ | ⟨ps, rfl, h⟩ := List.cons_eq_append_iff.mp hrest
    case inl => exact ⟨_, _, _, .done, hat ht hdir⟩
    case inr =>
      obtain ⟨links', there, es, hleads, hthere⟩ := ih ht.tail h
      rw [Trail.names_tail] at hleads
      exact ⟨links', there, es, .up (hat ht hdir) hleads, hthere⟩
  | @follow p _ _ target _ _ _ hp hdir hentry _ ih =>
    obtain ⟨rfl, -⟩ | ⟨ps, rfl, rfl⟩ := List.cons_eq_append_iff.mp hrest
    case inl => exact ⟨_, _, _, .done, hat ht hdir⟩
    case inr =>
      have ⟨hof, hstart⟩ := ht.restart target
      obtain ⟨links', there, es, hleads, hthere⟩ := ih hof (List.append_assoc ..).symm
      rw [hstart] at hleads
      exact ⟨links', there, es, .follow hp (ht.get?_entry hdir p ▸ hentry) hleads, hthere⟩
  | @enter p _ _ child _ t _ hp hdir hentry hlink hfinds ih =>
    obtain ⟨rfl, -⟩ | ⟨ps, rfl, rfl⟩ := List.cons_eq_append_iff.mp hrest
    case inl => exact ⟨_, _, _, .done, hat ht hdir⟩
    case inr =>
      have hchild := ht.get?_entry hdir p ▸ hentry
      obtain ⟨es, rfl : child = .dir es⟩ :=
        hfinds.exists_dir (List.append_ne_nil_of_right_ne_nil ps hqs)
      obtain ⟨links', there, es', hleads, hthere⟩ := ih (ht.enter hchild) rfl
      rw [Trail.names_cons] at hleads
      exact ⟨links', there, es', .enter hp hchild hleads, hthere⟩

-- Without links and ways up a walk stays below the directory that it starts from.
theorem names_below (h : Finds root links t ps place) (ht : Trail.Of root t)
    (hlinks : ∀ ns target, root.get? (t.names ++ ns) ≠ some (.link target)) (hps : ".." ∉ ps) :
    t.names <+: place.names := by
  induction h with
  | here => exact List.prefix_rfl
  | skip _ _ _ ih => exact ih ht hlinks (List.not_mem_of_not_mem_cons hps)
  | up => exact absurd List.mem_cons_self hps
  | absent | link => exact List.prefix_append ..
  | @follow p _ _ target _ _ _ _ hdir hentry _ _ =>
    exact absurd (ht.get?_entry hdir p ▸ hentry) (hlinks [p] target)
  | @enter p _ _ child _ t _ hp hdir hentry hlink _ ih =>
    have hchild := ht.get?_entry hdir p ▸ hentry
    refine .trans ?_ (ih (ht.enter hchild) ?_ (List.not_mem_of_not_mem_cons hps))
    case refine_1 => exact Trail.names_cons p child t ▸ List.prefix_append ..
    case refine_2 => simpa using fun ns => hlinks (p :: ns)

theorem names_below_name {p : String} (h : Finds root links t (p :: ps) place)
    (ht : Trail.Of root t) (hp : IsName p)
    (hlinks : ∀ ns target, root.get? (t.names ++ p :: ns) ≠ some (.link target))
    (hps : ".." ∉ ps) : t.names ++ [p] <+: place.names := by
  cases h with
  | skip hskip => exact absurd hskip (by simp [hp.ne_empty, hp.ne_here])
  | up => exact absurd rfl hp.ne_above
  | absent | link => exact List.prefix_rfl
  | @follow _ _ _ target _ _ _ _ hdir hentry _ =>
    exact absurd (ht.get?_entry hdir p ▸ hentry) (hlinks [] target)
  | @enter _ _ _ child _ _ _ _ hdir hentry hlink hfinds =>
    have hchild := ht.get?_entry hdir p ▸ hentry
    have hbelow := hfinds.names_below (ht.enter hchild) (by simpa using hlinks) hps
    rwa [Trail.names_cons] at hbelow

end Finds

section Grows

variable (hroot : root.Grows root') (hplace : root'.get? place.names = root.get? place.names)

include hroot

-- The directories of a trail are there in a tree that has grown.
theorem Trail.Of.exists_dir (ht : Trail.Of root t) (hu : Trail.Of root' u)
    (hnames : u.names = t.names) (hes : t.node root = .dir es) :
    ∃ es', u.node root' = .dir es' ∧ ∀ p, es'.lookup p = root'.get? (t.names ++ [p]) := by
  obtain ⟨es', hes'⟩ := hroot.dir (hes ▸ ht.get?_names)
  have hes' := hu.node_eq (hnames ▸ hes')
  exact ⟨es', hes', fun p => hnames ▸ (hu.get?_entry hes' p).symm⟩

include hplace

-- No link has come where looking goes on from a file or from a directory.
theorem exists_entry_of_walk_look {child : Node}
    (hchild : root.get? (t.names ++ [p]) = some child) (hlink : ∀ target, child ≠ .link target)
    (h : walk root .look links ((p, child) :: t) ps = .ok place) :
    ∃ child', root'.get? (t.names ++ [p]) = some child' ∧ ∀ target, child' ≠ .link target := by
  cases child with
  | link target => exact absurd rfl (hlink target)
  | dir es =>
    obtain ⟨es', hes'⟩ := hroot.dir hchild
    exact ⟨_, hes', by simp⟩
  | file content =>
    cases ps with
    | cons q ps => simp [walk, Trail.node] at h
    | nil =>
      rw [walk, Trail.names_cons] at h
      cases Except.ok.inj h
      exact ⟨_, hplace.trans hchild, by simp⟩

-- Looking leads to the same place in a tree that has grown, if the tree has not changed there.
theorem walk_look_grows (h : walk root .look links t ps = .ok place) (ht : Trail.Of root t)
    (hu : Trail.Of root' u) (hnames : u.names = t.names) :
    walk root' .look links u ps = .ok place := by
  have hmake {ps : List String} : Aim.look = .make → ps ≠ [] := nofun
  have hwrite {ps} : Aim.look = .write → ¬Path.isOnlySlashes ps := nofun
  fun_induction walk root .look links t ps generalizing u with
  | case1 links t =>
    cases h
    have hnode : root'.get? u.names = some (t.node root) := by rw [hnames, hplace, ht.get?_names]
    rw [walk, hu.node_eq hnode, hnames]
  | case2 links t p ps es hes hp ih =>
    obtain ⟨es', hes', -⟩ := ht.exists_dir hroot hu hnames hes
    rw [walk_skip hp hes']
    exact ih h ht hu hnames
  | case3 links t ps es hes _ ih =>
    obtain ⟨es', hes', -⟩ := ht.exists_dir hroot hu hnames hes
    rw [walk_up hes']
    exact ih h ht.tail hu.tail (by rw [Trail.names_tail, Trail.names_tail, hnames])
  | case4 | case5 | case7 | case9 | case12 => nomatch h
  | case6 links t p ps es hes h₁ h₂ _ h₃ hentry hps =>
    obtain ⟨es', hes', hentries⟩ := ht.exists_dir hroot hu hnames hes
    cases Except.ok.inj h
    have hentry' : es'.lookup p = none := by
      rw [hentries, hplace, ht.get?_entry hes, hentry]
    rw [walk_absent (isName_of_not h₁ h₂ h₃) hes' hentry' hwrite, if_pos hps, hnames]
  | case8 => simp_all
  | case10 t p ps es hes h₁ h₂ _ h₃ target hentry _ links ih =>
    obtain ⟨es', hes', hentries⟩ := ht.exists_dir hroot hu hnames hes
    have hentry' : es'.lookup p = some (.link target) := by
      rw [hentries]
      exact hroot.link (ht.get?_entry hes p ▸ hentry)
    have ⟨hof, hstart⟩ := ht.restart target
    have ⟨hof', hstart'⟩ := hu.restart target
    refine (walk_follow (isName_of_not h₁ h₂ h₃) hes' hentry' hmake hwrite).trans ?_
    exact ih h hof hof' ((hnames ▸ hstart').trans hstart.symm)
  | case11 links t p ps es hes h₁ h₂ _ h₃ child hlink hentry ih =>
    obtain ⟨es', hes', hentries⟩ := ht.exists_dir hroot hu hnames hes
    have hchild : root.get? (t.names ++ [p]) = some child := ht.get?_entry hes p ▸ hentry
    obtain ⟨child', hchild', hlink'⟩ := exists_entry_of_walk_look hroot hplace hchild hlink h
    have hentry' : es'.lookup p = some child' := (hentries p).trans hchild'
    rw [walk_enter (isName_of_not h₁ h₂ h₃) hes' hentry' hlink' hwrite]
    refine ih h (ht.enter hchild) (hu.enter (hnames ▸ hchild')) ?_
    rw [Trail.names_cons, Trail.names_cons, hnames]

end Grows

end Disk

end Imp
