import Imp.Program.Reader
import Imp.Proofs.Json.Written
import Imp.Proofs.Ordered

/-!
The ways to write a node of a document: as an object, with its fields in any order and others
between them that it does not know, or as an array of all its fields. Where a node has no use for a
type, it may have any. The fields of a node are found in all of them.
-/

namespace Imp

namespace Json

open Draft

-- What may be added to a node under a name that it does not know.
inductive Note : Draft → Prop
  | null : Note (.scalar .null)
  | bool (b : Bool) : Note (.scalar (.bool b))
  | str (s : String) : Note (.scalar (.str (some s)))

-- A field that is added to a node with fields of these names.
def Unknown (names : List String) (f : String × Draft) : Prop :=
  f.1 ∉ names ∧ Note f.2

-- A field that is added to a node which is known by its place, not by its type.
def Idle (names : List String) (f : String × Draft) : Prop :=
  Unknown ("type" :: names) f ∨ f.1 = "type" ∧ f.2.Document

def named (fields : List (String × Draft)) : List (Option String × Draft) :=
  fields.map fun f => (some f.1, f.2)

-- Fields in any order, with others between them that have been added.
def Spread (Added : String × Draft → Prop) (fields : List (String × Draft))
    (kvs : List (Option String × Draft)) : Prop :=
  ∃ added, kvs.Perm (named (fields ++ added)) ∧ ∀ f ∈ added, Added f

def textDraft (s : String) : Draft :=
  .scalar (.str (some s))

-- The spellings of a node that is known by its type.
inductive Tagged (kind : String) (fields : List (String × Draft)) : Draft → Prop
  | obj {kvs} (spread : Spread (Unknown ("type" :: fields.map (·.1)))
      (("type", textDraft kind) :: fields) kvs) : Tagged kind fields (.obj kvs)
  | arr : Tagged kind fields (.arr (textDraft kind :: fields.map (·.2)))

-- The spellings of a node that is known by its place.
inductive Untagged (fields : List (String × Draft)) : Draft → Prop
  | obj {kvs} (spread : Spread (Idle (fields.map (·.1))) fields kvs) : Untagged fields (.obj kvs)
  | arr : Untagged fields (.arr (fields.map (·.2)))

section Fields

variable {Added : String × Draft → Prop} {fields : List (String × Draft)} {d : Draft} {k : String}
  {kvs : List (Option String × Draft)} {n : Nat}

theorem filter_of_nodup (h : (fields.map (·.1)).Nodup) (k : String) :
    fields.filter (·.1 = k) = ((fields.lookup k).map fun d => (k, d)).toList := by
  induction fields with
  | nil => rfl
  | cons f fields ih =>
    rw [List.map_cons, List.nodup_cons] at h
    by_cases hk : k = f.1
    case pos =>
      have hnone : fields.filter (·.1 = k) = [] := by
        rw [List.filter_eq_nil_iff]
        intro g hg heq
        exact h.1 (List.mem_map.mpr ⟨g, hg, (of_decide_eq_true heq).trans hk⟩)
      subst hk
      simp [Ordered.lookup_cons_self, hnone]
    case neg => simp [Ordered.lookup_cons_of_ne hk, Ne.symm hk, ih h.2]

theorem lookup_of_nodup (h : (fields.map (·.1)).Nodup) :
    (fields.map (·.1)).map (fun k => fields.lookup k) = fields.map fun f => some f.2 := by
  induction fields with
  | nil => rfl
  | cons f fields ih =>
    rw [List.map_cons, List.nodup_cons] at h
    have hrest : (fields.map (·.1)).map (fun k => List.lookup k (f :: fields)) =
        (fields.map (·.1)).map fun k => fields.lookup k :=
      List.map_congr_left fun k hk => Ordered.lookup_cons_of_ne fun heq => h.1 (heq ▸ hk)
    rw [List.map_cons, List.map_cons, List.map_cons, Ordered.lookup_cons_self, hrest, ih h.2]

-- The fields with a name that is not added.
theorem Spread.filter_eq (h : Spread Added fields kvs) (hnodup : (fields.map (·.1)).Nodup)
    (hk : ∀ f, Added f → f.1 ≠ k) :
    kvs.filter (·.1 = some k) = ((fields.lookup k).map fun d => (some k, d)).toList := by
  obtain ⟨added, hperm, hadded⟩ := h
  have hnone : added.filter (·.1 = k) = [] := by
    rw [List.filter_eq_nil_iff]
    intro f hf heq
    exact hk f (hadded f hf) (of_decide_eq_true heq)
  have hnamed : (named (fields ++ added)).filter (·.1 = some k) =
      named ((fields.lookup k).map fun d => (k, d)).toList := by
    have hcomp : ((fun f : Option String × Draft => decide (f.1 = some k)) ∘
        fun f : String × Draft => (some f.1, f.2)) = fun f => decide (f.1 = k) := by
      funext f
      simp
    rw [named, List.filter_map, hcomp, List.filter_append, filter_of_nodup hnodup, hnone,
      List.append_nil, named]
  have hfilter := hperm.filter (·.1 = some k)
  rw [hnamed] at hfilter
  cases hlookup : fields.lookup k with
  | none =>
    rw [hlookup] at hfilter
    exact hfilter.eq_nil
  | some d =>
    rw [hlookup] at hfilter
    exact List.perm_singleton.mp hfilter

theorem Spread.get?_eq (h : Spread Added fields kvs) (hnodup : (fields.map (·.1)).Nodup)
    (asked : List String) (hasked : ∀ f, Added f → f.1 ∉ asked) :
    (Fields.named kvs).get? asked = some (asked.map fun k => fields.lookup k) := by
  induction asked with
  | nil => rfl
  | cons k asked ih =>
    have hfilter := h.filter_eq hnodup fun f hf heq => hasked f hf (heq ▸ List.mem_cons_self)
    have ih := ih fun f hf hmem => hasked f hf (List.mem_cons_of_mem k hmem)
    rw [Fields.get?] at ih ⊢
    rw [List.mapM_cons, hfilter, ih, List.map_cons]
    cases fields.lookup k <;> rfl

theorem Spread.document (h : Spread Added fields kvs) (hfields : ∀ f ∈ fields, f.2.Document)
    (hadded : ∀ f, Added f → f.2.Document) : (Draft.obj kvs).Document := by
  obtain ⟨added, hperm, hall⟩ := h
  have hvalues : ∀ f ∈ fields ++ added, f.2.Document := by
    intro f hf
    obtain hf | hf := List.mem_append.mp hf
    case inl => exact hfields f hf
    case inr => exact hadded f (hall f hf)
  have hmem : ∀ f ∈ kvs, ∃ g ∈ fields ++ added, (some g.1, g.2) = f := fun f hf =>
    List.mem_map.mp (hperm.mem_iff.mp hf)
  refine .obj (fun f hf => ?keys) fun f hf => ?values
  case keys =>
    obtain ⟨g, -, rfl⟩ := hmem f hf
    rfl
  case values =>
    obtain ⟨g, hg, rfl⟩ := hmem f hf
    exact hvalues g hg

theorem Spread.exists_depth (h : Spread Added fields kvs) (hd : (Draft.obj kvs).depth ≤ n) :
    ∃ m, n = m + 1 ∧ ∀ f ∈ fields, f.2.depth ≤ m := by
  obtain ⟨added, hperm, -⟩ := h
  obtain ⟨m, rfl, hkvs⟩ := Draft.exists_of_depth_obj hd
  refine ⟨m, rfl, fun f hf => ?_⟩
  exact hkvs (some f.1, f.2)
    (hperm.mem_iff.mpr (List.mem_map_of_mem (List.mem_append_left added hf)))

theorem spread_reverse (added : List (String × Draft)) (h : ∀ f ∈ added, Added f) :
    Spread Added fields (named (fields ++ added)).reverse :=
  ⟨added, List.reverse_perm _, h⟩

theorem Spread.mem (h : Spread Added fields kvs) {f : Option String × Draft} (hf : f ∈ kvs) :
    ∃ k, f.1 = some k := by
  obtain ⟨added, hperm, -⟩ := h
  obtain ⟨g, -, rfl⟩ := List.mem_map.mp (hperm.mem_iff.mp hf)
  exact ⟨g.1, rfl⟩

-- A field that is asked for, with others before and behind it.
theorem Spread.exists_append (h : Spread Added fields kvs) (hnodup : (fields.map (·.1)).Nodup)
    (hk : ∀ f, Added f → f.1 ≠ k) (hlookup : fields.lookup k = some d) :
    ∃ pre post, kvs = pre ++ (some k, d) :: post ∧
      ∀ f ∈ pre ++ post, ∃ k', f.1 = some k' ∧ k' ≠ k := by
  have hfilter := h.filter_eq hnodup hk
  rw [hlookup, Option.map_some, Option.toList_some, List.filter_eq_cons_iff] at hfilter
  obtain ⟨pre, post, rfl, hpre, -, hpost⟩ := hfilter
  refine ⟨pre, post, rfl, fun f hf => ?_⟩
  have hmem : f ∈ pre ++ (some k, d) :: post := by
    rw [List.mem_append, List.mem_cons]
    exact (List.mem_append.mp hf).imp_right .inr
  obtain ⟨k', hk'⟩ := h.mem hmem
  refine ⟨k', hk', ?_⟩
  rintro rfl
  obtain hf | hf := List.mem_append.mp hf
  case inl => exact hpre f hf (decide_eq_true hk')
  case inr => exact List.filter_eq_nil_iff.mp hpost f hf (decide_eq_true hk')

end Fields

section Nodes

variable {α : Type} {kinds : List (String × α)} {a : α} {kind : String} {names : List String}
  {fields : List (String × Draft)} {d : Draft} {kvs : List (Option String × Draft)} {n : Nat}

theorem Note.document (h : Note d) : d.Document := by
  cases h <;> exact .scalar rfl

theorem Unknown.ne {f : String × Draft} (h : Unknown names f) {k : String} (hk : k ∈ names) :
    f.1 ≠ k :=
  fun heq => h.1 (heq ▸ hk)

-- What a node with a type is taken for, as a whole or field by field.
structure TakenFor (kinds : List (String × α)) (d : Draft) (a : α) (fields : Fields) : Prop where
  whole : d.typed? kinds = some (a, fields)
  stepwise {β : Type} (n : Nat) (of? : Fields → α → Option β) : d.Document → d.depth ≤ n + 1 →
    typed kinds n of? d = orMismatched (of? fields a)

theorem kindAmong_skip {pre : List (Option String × Draft)} {found : Option α}
    (h : ∀ f ∈ pre, (∃ k, f.1 = some k ∧ k ≠ "type") ∧ f.2.isSound n) :
    kindAmong kinds n found (pre ++ kvs) = kindAmong kinds n found kvs := by
  induction pre with
  | nil => rfl
  | cons f pre ih =>
    obtain ⟨k, d⟩ := f
    obtain ⟨⟨⟨k, rfl, hk⟩, hsound⟩, hpre⟩ := List.forall_mem_cons.mp h
    rw [List.cons_append, kindAmong, if_neg hk, if_pos hsound, ih hpre]

theorem kind_textDraft (hkind : kinds.lookup kind = some a) :
    Json.kind kinds (textDraft kind) = .ok a := by
  simp [Json.kind, textDraft, hkind, orMismatched]

theorem Spread.takenFor
    (h : Spread (Unknown ("type" :: names)) (("type", textDraft kind) :: fields) kvs)
    (hkind : kinds.lookup kind = some a) (hnodup : ("type" :: fields.map (·.1)).Nodup) :
    TakenFor kinds (.obj kvs) a (.named kvs) := by
  have hadded : ∀ f, Unknown ("type" :: names) f → f.1 ≠ "type" := fun f hf =>
    hf.ne List.mem_cons_self
  have hlookup : (("type", textDraft kind) :: fields).lookup "type" = some (textDraft kind) :=
    List.lookup_cons_self
  constructor
  case whole =>
    have hfilter := h.filter_eq hnodup hadded
    rw [hlookup] at hfilter
    simp [Draft.typed?, hfilter, textDraft, Draft.kind?, hkind]
  case stepwise =>
    intro β n of? hdoc hdepth
    obtain ⟨pre, post, rfl, hothers⟩ := h.exists_append hnodup hadded hlookup
    have hsound : ∀ f ∈ pre ++ post, (∃ k, f.1 = some k ∧ k ≠ "type") ∧ f.2.isSound n := by
      intro f hf
      have hall := hdoc.isSound_iff.mpr hdepth
      simp only [isSound, List.all_append, List.all_cons, Bool.and_eq_true, List.all_eq_true]
        at hall
      obtain hf' | hf' := List.mem_append.mp hf
      case inl => exact ⟨hothers f hf, (hall.1 f hf').2⟩
      case inr => exact ⟨hothers f hf, (hall.2.2 f hf').2⟩
    have hkindAmong : kindAmong kinds n none (pre ++ (some "type", textDraft kind) :: post) =
        .ok a := by
      have hpost : kindAmong kinds n (some a) (post ++ []) = kindAmong kinds n (some a) [] :=
        kindAmong_skip fun f hf => hsound f (List.mem_append_right pre hf)
      rw [List.append_nil] at hpost
      rw [kindAmong_skip fun f hf => hsound f (List.mem_append_left post hf), kindAmong, if_pos rfl]
      simp [kind_textDraft hkind, bind, Except.bind, hpost, kindAmong, orMismatched]
    simp only [typed, hkindAmong, bind, Except.bind]

theorem takenFor_arr (hkind : kinds.lookup kind = some a) (ds : List Draft) :
    TakenFor kinds (.arr (textDraft kind :: ds)) a (.listed ds) where
  whole := by simp [Draft.typed?, textDraft, Draft.kind?, hkind]
  stepwise n of? hdoc hdepth := by
    have hall := hdoc.isSound_iff.mpr hdepth
    rw [isSound, List.all_cons, Bool.and_eq_true] at hall
    simp [typed, kind_textDraft hkind, bind, Except.bind, hall.2]

theorem Tagged.takenFor (h : Tagged kind fields d) (hkind : kinds.lookup kind = some a)
    (hnodup : ("type" :: fields.map (·.1)).Nodup) : ∃ fs, TakenFor kinds d a fs ∧
      fs.get? (fields.map (·.1)) = some (fields.map fun f => some f.2) := by
  have ⟨htype, hfields⟩ := List.nodup_cons.mp hnodup
  cases h with
  | @obj kvs hspread =>
    refine ⟨.named kvs, hspread.takenFor hkind hnodup, ?_⟩
    have hget := hspread.get?_eq hnodup (fields.map (·.1)) fun f hf hmem =>
      hf.1 (List.mem_cons_of_mem _ hmem)
    rw [hget, ← lookup_of_nodup hfields]
    refine congrArg some (List.map_congr_left fun k hk => Ordered.lookup_cons_of_ne ?_)
    rintro rfl
    exact htype hk
  | arr => exact ⟨_, takenFor_arr hkind _, by simp [Fields.get?]⟩

theorem Untagged.get?_eq (h : Untagged fields d) (hnodup : ("type" :: fields.map (·.1)).Nodup) :
    ∃ fs, d.untyped? = some fs ∧
      fs.get? (fields.map (·.1)) = some (fields.map fun f => some f.2) := by
  have ⟨htype, hfields⟩ := List.nodup_cons.mp hnodup
  cases h with
  | @obj kvs hspread =>
    refine ⟨.named kvs, rfl, ?_⟩
    rw [hspread.get?_eq hfields _ ?_, lookup_of_nodup hfields]
    rintro f (hf | ⟨hf, -⟩) hmem
    case inl => exact hf.1 (List.mem_cons_of_mem _ hmem)
    case inr => exact htype (hf ▸ hmem)
  | arr => exact ⟨.listed (fields.map (·.2)), rfl, by simp [Fields.get?]⟩

theorem Tagged.document (h : Tagged kind fields d) (hfields : ∀ f ∈ fields, f.2.Document) :
    d.Document := by
  cases h with
  | obj hspread =>
    refine hspread.document ?_ fun f hf => hf.2.document
    exact List.forall_mem_cons.mpr ⟨.scalar rfl, hfields⟩
  | arr =>
    refine .arr (List.forall_mem_cons.mpr ⟨.scalar rfl, ?_⟩)
    rw [List.forall_mem_map]
    exact hfields

theorem Untagged.document (h : Untagged fields d) (hfields : ∀ f ∈ fields, f.2.Document) :
    d.Document := by
  cases h with
  | obj hspread => exact hspread.document hfields fun f hf => hf.elim (·.2.document) (·.2)
  | arr =>
    refine .arr ?_
    rw [List.forall_mem_map]
    exact hfields

theorem Tagged.exists_depth (h : Tagged kind fields d) (hd : d.depth ≤ n) :
    ∃ m, n = m + 1 ∧ ∀ f ∈ fields, f.2.depth ≤ m := by
  cases h with
  | obj hspread =>
    obtain ⟨m, hn, hfields⟩ := hspread.exists_depth hd
    exact ⟨m, hn, (List.forall_mem_cons.mp hfields).2⟩
  | arr =>
    obtain ⟨m, hn, hds⟩ := Draft.exists_of_depth_arr hd
    exact ⟨m, hn, List.forall_mem_map.mp (List.forall_mem_cons.mp hds).2⟩

theorem Tagged.exists_takenFor (h : Tagged kind fields d) (kinds : List (String × α))
    (hd : d.depth ≤ n) (hkind : kinds.lookup kind = some a)
    (hnodup : ("type" :: fields.map (·.1)).Nodup) :
    ∃ m fs, n = m + 1 ∧ TakenFor kinds d a fs ∧ (∀ f ∈ fields, f.2.depth ≤ m) ∧
      fs.get? (fields.map (·.1)) = some (fields.map fun f => some f.2) := by
  obtain ⟨m, hn, hfields⟩ := h.exists_depth hd
  obtain ⟨fs, htaken, hget⟩ := h.takenFor hkind hnodup
  exact ⟨m, fs, hn, htaken, hfields, hget⟩

theorem Untagged.exists_depth (h : Untagged fields d) (hd : d.depth ≤ n) :
    ∃ m, n = m + 1 ∧ ∀ f ∈ fields, f.2.depth ≤ m := by
  cases h with
  | obj hspread => exact hspread.exists_depth hd
  | arr =>
    obtain ⟨m, hn, hds⟩ := Draft.exists_of_depth_arr hd
    exact ⟨m, hn, List.forall_mem_map.mp hds⟩

end Nodes

section Written

theorem fieldDrafts_eq (fs : List (String × Json)) :
    fieldDrafts fs = named (fs.map fun f => (f.1, f.2.draft)) := by
  induction fs with
  | nil => rfl
  | cons f fs ih => rw [fieldDrafts, ih, List.map_cons, named, named, List.map_cons]

theorem tagged_draft (kind : String) (fs : List (String × Json)) :
    Tagged kind (fs.map fun f => (f.1, f.2.draft))
      (Json.obj (("type", .str kind) :: fs)).draft := by
  refine .obj ⟨[], ?_, nofun⟩
  rw [List.append_nil, fieldDrafts_eq]
  rfl

theorem untagged_draft (fs : List (String × Json)) :
    Untagged (fs.map fun f => (f.1, f.2.draft)) (Json.obj fs).draft := by
  refine .obj ⟨[], ?_, nofun⟩
  rw [List.append_nil, fieldDrafts_eq]

-- The type that a document gives to a node which is known by its place.
theorem untagged_draft_type (type : Json) (fs : List (String × Json)) :
    Untagged (fs.map fun f => (f.1, f.2.draft)) (Json.obj (("type", type) :: fs)).draft := by
  refine .obj ⟨[("type", type.draft)], ?_, ?_⟩
  case refine_1 =>
    rw [fieldDrafts_eq]
    exact (List.perm_append_singleton _ _).symm.map _
  case refine_2 => exact List.forall_mem_singleton.mpr (.inr ⟨rfl, document_draft type⟩)

end Written

end Json

end Imp
