import Imp.Proofs.Except
import Imp.Proofs.Files.Resolve
import Imp.Workspace

/-!
What saving an artifact changes: nothing but what is in its bucket.

The root of a workspace is a directory where a source of it is read. Saving makes directories and
writes a file below a bucket in that directory, which the root leads to afterwards as well.
-/

namespace Imp

open Disk

variable {w : Workspace} {d d' d'' : Disk} {place ns : List String} {new : Node} {a : Artifact}

namespace Artifact

theorem isName_bucket (a : Artifact) : IsName a.bucket := by
  cases a <;> exact ⟨by decide, by decide, by decide, by decide⟩

theorem slash_not_mem_bucket (a : Artifact) : '/' ∉ a.bucket.toList := by
  cases a <;> decide

theorem nul_not_mem_bucket (a : Artifact) : '\x00' ∉ a.bucket.toList := by
  cases a <;> decide

theorem length_bucket_le (a : Artifact) : a.bucket.utf8ByteSize ≤ 6 := by
  cases a <;> decide

-- The last letter of an extension.
def lastLetter : Artifact → Char
  | program | trace => 'n'
  | python => 'y'
  | wat => 't'
  | assembly => 'm'

theorem getLast?_suffix (a : Artifact) (s : String) :
    (s ++ ("." ++ a.extension)).toList.getLast? = some a.lastLetter := by
  cases a <;> simp [extension, lastLetter]

theorem slash_not_mem_suffix (a : Artifact) : '/' ∉ ("." ++ a.extension).toList := by
  cases a <;> decide

-- A name with an extension is no name that means a directory.
theorem ne_of_dots (a : Artifact) {s dots : String} (hdots : dots = "" ∨ dots = "." ∨ dots = "..") :
    s ++ ("." ++ a.extension) ≠ dots := by
  intro h
  have hlast := a.getLast?_suffix s
  rw [h] at hlast
  obtain rfl | rfl | rfl := hdots <;> cases a <;> simp [lastLetter] at hlast

end Artifact

theorem mem_of_mem_stemOfFile {c : Char} {cs : List Char} (h : c ∈ stemOfFile cs) : c ∈ cs := by
  unfold stemOfFile at h
  split at h
  case h_1 => exact h
  case h_2 =>
    have h := List.mem_of_mem_tail (List.mem_reverse.mp h)
    exact List.mem_reverse.mp (List.dropWhile_subset _ h)

-- A file name stands behind nothing, or behind the last slash.
theorem exists_last_name (cs : List Char) : ∃ above file, cs = above ++ file ∧ '/' ∉ file ∧
    (above = [] ∨ ∃ dir, above = dir ++ ['/']) := by
  induction cs with
  | nil => exact ⟨[], [], rfl, List.not_mem_nil, .inl rfl⟩
  | cons c cs ih =>
    obtain ⟨above, file, rfl, hfile, rfl | ⟨dir, rfl⟩⟩ := ih
    case inl =>
      by_cases hc : c = '/'
      case pos => exact ⟨[c], file, rfl, hfile, .inr ⟨[], by simp [hc]⟩⟩
      case neg => exact ⟨[], c :: file, rfl, by simp [Ne.symm hc, hfile], .inl rfl⟩
    case inr => exact ⟨c :: (dir ++ ['/']), file, rfl, hfile, .inr ⟨c :: dir, rfl⟩⟩

theorem stem_ofList {above file : List Char} (hfile : '/' ∉ file)
    (habove : above = [] ∨ ∃ dir, above = dir ++ ['/']) :
    stem (String.ofList (above ++ file)) = String.ofList (above ++ stemOfFile file) := by
  have hlast : ((above ++ file).reverse.takeWhile (· ≠ '/')).reverse = file := by
    have hne : ∀ c ∈ file.reverse, decide (c ≠ '/') = true := fun c hc =>
      decide_eq_true fun h => hfile (List.mem_reverse.mp (h ▸ hc))
    rw [List.reverse_append, List.takeWhile_append_of_pos hne]
    obtain rfl | ⟨dir, rfl⟩ := habove <;> simp
  simp only [stem, String.toList_ofList, hlast, List.length_append, Nat.add_sub_cancel,
    List.take_left]

-- The stem goes by the names above its source, and so does what is behind it.
theorem exists_parts_stem (name : String) :
    ∃ above file, Path.parts name = above ++ [file] ∧ ∀ ext : String, '/' ∉ ext.toList →
      Path.parts (stem name ++ ext) = above ++ [String.ofList (stemOfFile file.toList) ++ ext] := by
  obtain ⟨above, file, hname, hslash, habove⟩ := exists_last_name name.toList
  have hname : name = String.ofList (above ++ file) := by rw [← hname, String.ofList_toList]
  have hfile : '/' ∉ (String.ofList file).toList := by rwa [String.toList_ofList]
  have hstem {ext : String} (hext : '/' ∉ ext.toList) :
      '/' ∉ (String.ofList (stemOfFile file) ++ ext).toList := by
    rw [String.toList_append, String.toList_ofList, List.mem_append, not_or]
    exact ⟨fun h => hslash (mem_of_mem_stemOfFile h), hext⟩
  obtain rfl | ⟨dir, rfl⟩ := habove
  case inl =>
    refine ⟨[], String.ofList file, ?_, fun ext hext => ?_⟩
    case refine_1 => rw [hname, List.nil_append, Path.parts_of_not_mem hfile, List.nil_append]
    case refine_2 =>
      rw [hname, stem_ofList hslash (.inl rfl), String.toList_ofList]
      exact Path.parts_of_not_mem (hstem hext)
  case inr =>
    refine ⟨Path.parts (String.ofList dir), String.ofList file, ?_, fun ext hext => ?_⟩
    case refine_1 => rw [hname, String.ofList_append, Path.parts_behind dir hfile]
    case refine_2 =>
      rw [hname, stem_ofList hslash (.inr ⟨dir, rfl⟩), String.toList_ofList, String.ofList_append,
        String.append_assoc]
      exact Path.parts_behind dir (hstem hext)

namespace Workspace

-- The root leads to a directory.
structure RootAt (w : Workspace) (d : Disk) (place : List String) : Prop where
  leads : ∃ links, Leads d.root maxLinks (d.begin (Path.base w.root)) (Path.base w.root) links place
  dir : ∃ es, d.root.get? place = some (.dir es)

-- The buckets in it hold no links.
structure Ready (w : Workspace) (d : Disk) (place : List String) : Prop extends
    w.RootAt d place where
  linkless : ∀ (a : Artifact) ns target,
    d.root.get? (place ++ a.bucket :: ns) ≠ some (.link target)

-- A place that is neither in a bucket nor above one.
def Apart (place ns : List String) : Prop :=
  ∀ a : Artifact, ¬place ++ [a.bucket] <+: ns ∧ ¬ns <+: place ++ [a.bucket]

-- Nothing changes but what is in the buckets, and no link or directory goes.
structure Kept (place : List String) (d d' : Disk) : Prop where
  current : d'.current = d.current
  grows : d.root.Grows d'.root
  link : ∀ ns target, d'.root.get? ns = some (.link target) → d.root.get? ns = some (.link target)
  apart : ∀ ns, Apart place ns → d'.root.get? ns = d.root.get? ns

namespace Kept

theorem refl (place : List String) (d : Disk) : Kept place d d where
  current := rfl
  grows := .refl d.root
  link _ _ h := h
  apart _ _ := rfl

theorem trans (h : Kept place d d') (h' : Kept place d' d'') : Kept place d d'' where
  current := h'.current.trans h.current
  grows := h.grows.trans h'.grows
  link ns target hl := h.link ns target (h'.link ns target hl)
  apart ns hns := (h'.apart ns hns).trans (h.apart ns hns)

theorem put (hns : place ++ [a.bucket] <+: ns)
    (hfile : ∀ node, d.root.get? ns = some node → node.IsFile) (hnew : new.Linkless) :
    Kept place d (d.put ns new) where
  current := rfl
  grows := .put hfile new
  link _ _ h := Node.get?_of_get?_put_link hnew h
  apart ms hms := by
    refine Node.get?_put_elsewhere (fun h => (hms a).1 (hns.trans h)) fun h => ?_
    cases List.prefix_or_prefix_of_prefix h hns with
    | inl h => exact (hms a).2 h
    | inr h => exact (hms a).1 h

end Kept

variable {path n : String} {ps : List String} {aim : Aim} {p : Place}

-- What is found apart from the buckets is found there afterwards, with the same in it.
theorem Kept.resolve_look (hk : Kept place d d') (h : d.resolve .look path = .ok p)
    (hp : Apart place p.names) : d'.resolve .look path = .ok p := by
  obtain ⟨hpath, hne, t, ht, hwalk⟩ := resolve_eq_ok_iff.mp h
  have ⟨hof, hnames⟩ := of_begin? ht
  have hbegin : d'.begin (Path.parts path) = d.begin (Path.parts path) := by
    rw [begin, begin, hk.current]
  obtain ⟨es, hes⟩ := (finds_of_walk hwalk).exists_dir (Path.parts_ne_nil path)
  obtain ⟨es', hes'⟩ := hk.grows.dir (hes ▸ hof.get?_names)
  obtain ⟨u, hu⟩ := exists_begin? (hbegin.trans hnames.symm ▸ hes')
  have ⟨hof', hnames'⟩ := of_begin? hu
  refine resolve_eq_ok_iff.mpr ⟨hpath, hne, u, hu, ?_⟩
  exact walk_look_grows hk.grows (hk.apart _ hp) hwalk hof hof' (by rw [hnames', hbegin, hnames])

namespace RootAt

-- What stands behind the root in a path is looked up from there.
theorem exists_walk (h : w.RootAt d place) (hparts : Path.parts path = Path.base w.root ++ n :: ps)
    (hn : n ≠ "") (hpath : Admissible path) :
    ∃ links t, Trail.Of d.root t ∧ t.names = place ∧
      ∀ aim, d.resolve aim path = walk d.root aim links t (n :: ps) := by
  have ⟨links, hleads⟩ := h.leads
  have ⟨es, hdir⟩ := h.dir
  obtain ⟨_, hbegin⟩ := hleads.exists_dir_here hdir
  obtain ⟨t, ht⟩ := exists_begin? hbegin
  have ⟨hof, hnames⟩ := of_begin? ht
  obtain ⟨u, hu, hplace, heq⟩ := hleads.walk_eq hof hnames
  refine ⟨links, u, hu, hplace, fun aim => ?_⟩
  rw [resolve_eq hpath hparts hn, ht]
  exact heq aim _ (.inr ⟨n, List.mem_cons_self, hn⟩)

theorem resolve_make (h : w.RootAt d place) (hn : IsName n)
    (hparts : Path.parts path = Path.base w.root ++ [n]) (hpath : Admissible path) :
    d.resolve .make path = .ok ⟨place ++ [n], d.root.get? (place ++ [n])⟩ := by
  obtain ⟨es, hdir⟩ := h.dir
  obtain ⟨links, t, ht, rfl, heq⟩ := h.exists_walk hparts hn.ne_empty hpath
  have hdir := ht.node_eq hdir
  rw [heq, walk_make hn hdir, ht.get?_entry hdir]

theorem nodeAt?_eq (h : w.RootAt d place) (hn : IsName n)
    (hparts : Path.parts path = Path.base w.root ++ [n]) (hpath : Admissible path) :
    d.nodeAt? path = d.root.get? (place ++ [n]) := by
  rw [nodeAt?, h.resolve_make hn hparts hpath]

-- The root is there, so nothing above a bucket is missing.
theorem makeDir_ne_notFound (h : w.RootAt d place)
    (hparts : Path.parts path = Path.base w.root ++ [a.bucket]) :
    d.makeDir path ≠ .error .notFound := by
  intro hd
  by_cases hpath : Admissible path
  case pos =>
    rw [Disk.makeDir, h.resolve_make a.isName_bucket hparts hpath] at hd
    cases hentry : d.root.get? (place ++ [a.bucket]) <;> simp [hentry, bind, Except.bind] at hd
  case neg =>
    have hne := ne_empty_of_parts hparts a.isName_bucket.ne_empty
    cases hp : d.resolve .make path with
    | error e =>
      rw [Disk.makeDir, hp] at hd
      cases hd
      exact resolve_ne_notFound hpath hne hp
    | ok p => exact hpath (admissible_of_resolve hp)

end RootAt

theorem RootAt.kept (h : w.RootAt d place) (hk : Kept place d d') : w.RootAt d' place where
  leads := by
    have ⟨links, hleads⟩ := h.leads
    refine ⟨links, ?_⟩
    rw [begin, hk.current]
    exact hleads.grows hk.grows
  dir := have ⟨_, hdir⟩ := h.dir; hk.grows.dir hdir

namespace Ready

theorem kept (h : w.Ready d place) (hk : Kept place d d') : w.Ready d' place where
  toRootAt := h.toRootAt.kept hk
  linkless a ns target hlink := h.linkless a ns target (hk.link _ _ hlink)

theorem of_resolve (h : w.Ready d place)
    (hparts : Path.parts path = Path.base w.root ++ a.bucket :: ps) (hps : ".." ∉ ps)
    (hp : d.resolve aim path = .ok p) :
    place ++ [a.bucket] <+: p.names ∧ p.node = d.root.get? p.names ∧
      ∀ target, p.node ≠ some (.link target) := by
  obtain ⟨links, t, ht, rfl, heq⟩ :=
    h.exists_walk hparts a.isName_bucket.ne_empty (admissible_of_resolve hp)
  have hfinds := finds_of_walk ((heq aim).symm.trans hp)
  have hbelow := hfinds.names_below_name ht a.isName_bucket (h.linkless a) hps
  refine ⟨hbelow, hfinds.node_eq ht, fun target hlink => ?_⟩
  obtain ⟨ns, hns⟩ := hbelow
  rw [hfinds.node_eq ht, ← hns, List.append_assoc] at hlink
  exact h.linkless a ns target hlink

theorem makeDir (h : w.Ready d place)
    (hparts : Path.parts path = Path.base w.root ++ a.bucket :: ps) (hps : ".." ∉ ps)
    (hd : d.makeDir path = .ok d') : Kept place d d' := by
  simp only [Disk.makeDir, bind_eq_ok] at hd
  obtain ⟨p, hp, hd⟩ := hd
  obtain ⟨hbelow, hnode, -⟩ := h.of_resolve hparts hps hp
  cases hentry : p.node with
  | some node => simp [hentry] at hd
  | none =>
    rw [hentry] at hnode hd
    cases hd
    exact .put hbelow (by simp [← hnode]) Node.linkless_dir_nil

theorem write (h : w.Ready d place)
    (hparts : Path.parts path = Path.base w.root ++ a.bucket :: ps) (hps : ".." ∉ ps)
    {content : ByteArray} (hd : d.write path content = .ok d') : Kept place d d' := by
  simp only [Disk.write, bind_eq_ok] at hd
  obtain ⟨p, hp, hd⟩ := hd
  obtain ⟨hbelow, hnode, hlink⟩ := h.of_resolve hparts hps hp
  have hfile : ∀ node, d.root.get? p.names = some node → node.IsFile := by
    intro node hget
    rw [hget] at hnode
    cases node with
    | file content => exact ⟨content, rfl⟩
    | link target => exact absurd hnode (hlink target)
    | dir es => simp [hnode] at hd
  split at hd
  case h_1 => nomatch hd
  case h_2 =>
    cases hd
    exact .put hbelow hfile (Node.linkless_file content)

theorem makeDirs_cons (h : w.Ready d place)
    (hparts : Path.parts path = Path.base w.root ++ a.bucket :: ps) (hps : ".." ∉ ps)
    {paths : List String}
    (hpaths : d.makeDir path = .error .notFound → Kept place d (d.makeDirs paths).1) :
    Kept place d (d.makeDirs (path :: paths)).1 := by
  rw [Disk.makeDirs]
  cases hd : d.makeDir path with
  | ok d' => exact h.makeDir hparts hps hd
  | error e =>
    cases e with
    | notFound =>
      have hkept := hpaths hd
      cases hmade : d.makeDirs paths with
      | mk d' r =>
        rw [hmade] at hkept
        cases r with
        | error e => exact hkept
        | ok =>
          cases hd' : d'.makeDir path with
          | ok d'' => simpa [hd'] using hkept.trans ((h.kept hkept).makeDir hparts hps hd')
          | error e => simpa [hd'] using hkept
    | _ => exact .refl place d

-- The directories above an artifact are made from the bucket on.
theorem makeDirs (h : w.Ready d place) {above : List String}
    (hslash : ∀ n ∈ above ++ a.bucket :: (Path.base w.root).reverse, '/' ∉ n.toList)
    (habove : ".." ∉ above) :
    Kept place d
      (d.makeDirs (Path.ancestorsOf (above ++ a.bucket :: (Path.base w.root).reverse))).1 := by
  have hparts : ∀ {ns : List String}, ns ≠ [] → (∀ n ∈ ns, '/' ∉ n.toList) →
      Path.parts ("/".intercalate ns.reverse) = ns.reverse := fun hne h =>
    Path.parts_intercalate (by simpa using hne) (by simpa using h)
  have hbucket := a.isName_bucket
  induction above with
  | nil =>
    have hpath := hparts (List.cons_ne_nil _ _) hslash
    rw [List.reverse_cons, List.reverse_reverse] at hpath
    rw [List.nil_append, Path.ancestorsOf, if_neg (by simp [hbucket.ne_empty, hbucket.ne_here]),
      List.reverse_cons, List.reverse_reverse]
    exact h.makeDirs_cons hpath List.not_mem_nil fun hd => absurd hd (h.makeDir_ne_notFound hpath)
  | cons n above ih =>
    have ih := ih (fun m hm => hslash m (List.mem_cons_of_mem n hm))
      (List.not_mem_of_not_mem_cons habove)
    rw [List.cons_append, Path.ancestorsOf]
    split
    case isTrue => exact ih
    case isFalse =>
      have hpath := hparts (List.cons_ne_nil _ _) hslash
      have hps : ".." ∉ (n :: above).reverse := fun hmem => habove (List.mem_reverse.mp hmem)
      exact h.makeDirs_cons (by simpa using hpath) (by simpa using hps) fun _ => ih

end Ready

variable {name contents : String}

-- The parts of the path of an artifact. Its last name is that of a file.
theorem exists_parts_artifactPath (w : Workspace) (a : Artifact)
    (habs : Path.isAbsolute name = false) (hup : ".." ∉ Path.parts name) :
    ∃ above file, Path.parts (w.artifactPath a name) =
        Path.base w.root ++ a.bucket :: (above ++ [file]) ∧
      ".." ∉ above ++ [file] ∧ file ≠ "" ∧ file ≠ "." := by
  obtain ⟨above, last, hname, hstem⟩ := exists_parts_stem name
  have hparts := hstem _ a.slash_not_mem_suffix
  have hne := @a.ne_of_dots
  have habs : Path.isAbsolute (stem name ++ ("." ++ a.extension)) = false := by
    rw [Bool.eq_false_iff] at habs ⊢
    rwa [Ne, Path.isAbsolute_iff_head?_concat hparts, ← Path.isAbsolute_iff_head?_concat hname]
  refine ⟨above, String.ofList (stemOfFile last.toList) ++ ("." ++ a.extension), ?_, ?_,
    hne (.inl rfl), hne (.inr (.inl rfl))⟩
  case refine_1 =>
    rw [artifactPath, String.append_assoc, Path.parts_join habs,
      Path.base_join a.isName_bucket.ne_empty a.slash_not_mem_bucket, hparts, List.append_assoc]
    rfl
  case refine_2 =>
    rw [List.mem_append, List.mem_singleton, not_or]
    exact ⟨fun h => hup (hname ▸ List.mem_append_left _ h), (hne (.inr (.inr rfl))).symm⟩

theorem Ready.save (h : w.Ready d place) (a : Artifact) (contents : String)
    (habs : Path.isAbsolute name = false) (hup : ".." ∉ Path.parts name) :
    Kept place d (w.save d a name contents).1 := by
  obtain ⟨above, file, hparts, hbelow, hne, hhere⟩ := exists_parts_artifactPath w a habs hup
  have hmade : Kept place d (d.makeParents (w.artifactPath a name)).1 := by
    have hslash : ∀ n ∈ above.reverse ++ a.bucket :: (Path.base w.root).reverse, '/' ∉ n.toList := by
      intro n hn
      refine Path.slash_not_mem_parts (p := w.artifactPath a name) ?_
      rw [hparts]
      simp only [List.mem_append, List.mem_reverse, List.mem_cons] at hn ⊢
      exact hn.elim (fun hn => .inr (.inr (.inl hn))) fun hn => hn.elim (.inr ∘ .inl) .inl
    have hup : ".." ∉ above.reverse := fun hmem =>
      hbelow (List.mem_append_left _ (List.mem_reverse.mp hmem))
    have hkept := h.makeDirs hslash hup
    have hancestors : (Path.ancestors (w.artifactPath a name)).tail =
        Path.ancestorsOf (above.reverse ++ a.bucket :: (Path.base w.root).reverse) := by
      rw [Path.ancestors, hparts]
      simp [Path.ancestorsOf, hne, hhere]
    rwa [makeParents, hancestors]
  unfold Workspace.save
  dsimp only
  rcases hd : d.makeParents (w.artifactPath a name) with ⟨d', e | _⟩ <;> rw [hd] at hmade
  case error => exact hmade
  case ok =>
    dsimp only
    cases hd' : d'.write (w.artifactPath a name) contents.toUTF8 with
    | error e => exact hmade
    | ok d'' => exact hmade.trans ((h.kept hmade).write hparts hbelow hd')

variable {text : String}

theorem resolve_of_readSource (h : w.readSource d name = .ok text) :
    ∃ p, d.resolve .look (Path.join w.origin name) = .ok p := by
  simp only [readSource] at h
  split at h
  case isTrue =>
    simp only [mapError_eq_ok, readText, bind_eq_ok] at h
    obtain ⟨p, hp, -⟩ := h
    exact ⟨p, hp⟩
  case isFalse => nomatch h

theorem parts_source (w : Workspace) (habs : Path.isAbsolute name = false) :
    Path.parts (Path.join w.origin name) = Path.base w.root ++ "origin" :: Path.parts name := by
  rw [Path.parts_join habs, origin, Path.base_join (by decide) (by decide), List.append_assoc]
  rfl

-- Where a source is read, the parts of its path lead to directories.
theorem exists_leads_of_readSource {ps qs : List String} (habs : Path.isAbsolute name = false)
    (h : w.readSource d name = .ok text)
    (hparts : Path.base w.root ++ "origin" :: Path.parts name = ps ++ qs) (hqs : qs ≠ []) :
    ∃ links place es, Leads d.root maxLinks (d.begin (Path.base w.root)) ps links place ∧
      d.root.get? place = some (.dir es) := by
  obtain ⟨p, hp⟩ := resolve_of_readSource h
  rw [resolve_eq (admissible_of_resolve hp) (w.parts_source habs) (by decide)] at hp
  cases ht : d.begin? (Path.base w.root) with
  | none => simp [ht] at hp
  | some t =>
    rw [ht] at hp
    have ⟨hof, hnames⟩ := of_begin? ht
    exact hnames ▸ (finds_of_walk hp).exists_leads hof hparts hqs

theorem exists_rootAt (habs : Path.isAbsolute name = false) (h : w.readSource d name = .ok text) :
    ∃ place, w.RootAt d place := by
  obtain ⟨links, place, es, hleads, hdir⟩ :=
    exists_leads_of_readSource habs h rfl (List.cons_ne_nil _ _)
  exact ⟨place, ⟨links, hleads⟩, es, hdir⟩

-- The paths of what stands in the root are no longer than that of a source.
theorem admissible_join {n : String} (habs : Path.isAbsolute name = false)
    (h : w.readSource d name = .ok text) (hslash : '/' ∉ n.toList) (hnul : '\x00' ∉ n.toList)
    (hlength : n.utf8ByteSize ≤ 6) : Admissible (Path.join w.root n) := by
  obtain ⟨p, hp⟩ := resolve_of_readSource h
  have ⟨hno, hshort⟩ := admissible_of_resolve hp
  rw [Path.join_eq habs, origin, Path.front_join (by decide) (by decide)] at hno hshort
  rw [Path.join_eq (Path.isAbsolute_of_not_mem hslash)]
  constructor
  case no_nul => simp_all
  case short =>
    have : "origin".utf8ByteSize = 6 := by decide
    simp only [String.utf8ByteSize_append] at hshort ⊢
    omega

theorem parts_join_root (w : Workspace) {n : String} (hslash : '/' ∉ n.toList) :
    Path.parts (Path.join w.root n) = Path.base w.root ++ [n] := by
  rw [Path.parts_join (Path.isAbsolute_of_not_mem hslash), Path.parts_of_not_mem hslash]

theorem exists_resolve_origin (habs : Path.isAbsolute name = false)
    (h : w.readSource d name = .ok text) : ∃ p, d.resolve .look w.origin = .ok p := by
  obtain ⟨links, place, es, hleads, hdir⟩ :=
    exists_leads_of_readSource habs h (List.append_cons ..) (Path.parts_ne_nil name)
  have hpath := admissible_join (n := "origin") habs h (by decide) (by decide) (by decide)
  exact ⟨_, hleads.resolve_look hpath (w.parts_join_root (by decide)) (by decide) hdir⟩

theorem RootAt.resolve_bucket (hroot : w.RootAt d place) (a : Artifact)
    (habs : Path.isAbsolute name = false) (h : w.readSource d name = .ok text) :
    d.resolve .make (Path.join w.root a.bucket) =
      .ok ⟨place ++ [a.bucket], d.root.get? (place ++ [a.bucket])⟩ :=
  hroot.resolve_make a.isName_bucket (w.parts_join_root a.slash_not_mem_bucket)
    (admissible_join habs h a.slash_not_mem_bucket a.nul_not_mem_bucket a.length_bucket_le)

theorem RootAt.ready (hroot : w.RootAt d place) (habs : Path.isAbsolute name = false)
    (h : w.readSource d name = .ok text)
    (hlinkless : ∀ (a : Artifact) node, d.nodeAt? (Path.join w.root a.bucket) = some node →
      node.Linkless) : w.Ready d place where
  toRootAt := hroot
  linkless a ns target hlink := by
    rw [List.append_cons, Node.get?_append, Option.bind_eq_some_iff] at hlink
    obtain ⟨node, hnode, hlink⟩ := hlink
    have hentry : d.nodeAt? (Path.join w.root a.bucket) = d.root.get? (place ++ [a.bucket]) := by
      rw [nodeAt?, hroot.resolve_bucket a habs h]
    exact hlinkless a node (hentry.trans hnode) ns target hlink

-- A place that is neither in the directory of a bucket nor above it.
def Outside (w : Workspace) (d : Disk) (ns : List String) : Prop :=
  ∀ (a : Artifact) p, d.resolve .make (Path.join w.root a.bucket) = .ok p →
    ¬p.names <+: ns ∧ ¬ns <+: p.names

theorem RootAt.outside_iff (hroot : w.RootAt d place) (habs : Path.isAbsolute name = false)
    (h : w.readSource d name = .ok text) : w.Outside d ns ↔ Apart place ns := by
  simp only [Outside, hroot.resolve_bucket _ habs h, Except.ok.injEq, forall_eq']
  rfl

end Workspace

end Imp
