import Imp.Proofs.Json.Spelling

/-!
A saved program reads back as the identical program, from either layout, as long as its document
nests no deeper than a reader follows; beyond that the text counts as malformed.
-/

namespace Imp

open Json (Draft Fault Fields draft drafts fieldDrafts depths)

theorem legible_toInt (v : Int32) : Json.Legible v.toInt := by
  have := v.le_toInt
  have := v.toInt_lt
  simp only [Json.Legible, Json.Lexeme.maxSignificand]
  omega

theorem Expr.allLegible_json (e : Expr) : e.json.AllLegible := by
  induction e with
  | num v => exact ⟨trivial, legible_toInt v, trivial⟩
  | var x => exact ⟨trivial, trivial, trivial⟩
  | bin op l r hl hr => exact ⟨trivial, trivial, hl, hr, trivial⟩

theorem Cond.allLegible_json (c : Cond) : c.json.AllLegible :=
  ⟨trivial, c.left.allLegible_json, c.right.allLegible_json, trivial⟩

theorem Program.itemsLegible_jsonItems (p : Program) : Json.ItemsLegible (Program.jsonItems p) := by
  induction p using Program.induction with
  | nil => trivial
  | declare x e k hk | assign x e k hk =>
    exact ⟨⟨trivial, (Expr.var x).allLegible_json, e.allLegible_json, trivial⟩, hk⟩
  | loop c b k hb hk => exact ⟨⟨trivial, c.allLegible_json, hb, trivial⟩, hk⟩
  | branch c t k ht hk => exact ⟨⟨trivial, c.allLegible_json, ht, trivial, trivial⟩, hk⟩
  | branchElse c t f k ht hf hk => exact ⟨⟨trivial, c.allLegible_json, ht, hf, trivial⟩, hk⟩

theorem Program.allLegible_json (p : Program) : p.json.AllLegible :=
  ⟨trivial, p.itemsLegible_jsonItems, trivial⟩

namespace Json

section Kinds

variable {α β : Type} {kinds : List (String × α)} {n : Nat} {fs : List (String × Json)}

theorem kindAmong_some (hfs : ∀ f ∈ fs, f.1 ≠ "type") (kind : α) :
    kindAmong kinds n (some kind) (fieldDrafts fs)
      = if fieldDepths fs ≤ n then .ok kind else .error .malformed := by
  induction fs with
  | nil => simp [fieldDrafts, fieldDepths, kindAmong, orMismatched]
  | cons f fs ih =>
    obtain ⟨hf, hfs⟩ := List.forall_mem_cons.mp hfs
    have hsound := isSound_draft n f.2
    simp only [fieldDrafts, fieldDepths, kindAmong, if_neg hf, ih hfs, Nat.max_le]
    by_cases hd : f.2.depth ≤ n
    case pos => simp [hd, hsound.mpr hd]
    case neg => simp [hd, Bool.eq_false_iff.mpr fun h => hd (hsound.mp h)]

variable {name : String} {kind : α} (hkind : kinds.lookup name = some kind)
include hkind

theorem kindAmong_node (hfs : ∀ f ∈ fs, f.1 ≠ "type") :
    kindAmong kinds n none (fieldDrafts (("type", str name) :: fs))
      = if fieldDepths fs ≤ n then .ok kind else .error .malformed := by
  simp [fieldDrafts, draft, kindAmong, Json.kind, hkind, orMismatched, kindAmong_some hfs, bind,
    Except.bind]

-- A node that names its kind first is refused if something in it is too deep.
theorem typed_of_deep (hfs : ∀ f ∈ fs, f.1 ≠ "type") (hdepth : n < fieldDepths fs)
    (of? : Fields → α → Option β) :
    typed kinds n of? (obj (("type", str name) :: fs)).draft = .error .malformed := by
  rw [draft, typed, kindAmong_node hkind hfs, if_neg (Nat.not_le.mpr hdepth)]
  rfl

end Kinds

-- A statement names its kind first.
theorem exists_fields (s : Stmt) : ∃ kind fs, s.json = obj (("type", str s.kindName) :: fs)
    ∧ stmtKinds.lookup s.kindName = some kind ∧ ∀ f ∈ fs, f.1 ≠ "type" := by
  cases s with
  | declare x e => exact ⟨.declare, _, by rw [Stmt.json]; rfl, rfl, by simp⟩
  | assign x e => exact ⟨.assign, _, by rw [Stmt.json]; rfl, rfl, by simp⟩
  | loop c b => exact ⟨.loop, _, by rw [Stmt.json]; rfl, rfl, by simp⟩
  | branch c t f =>
    cases f with
    | none => exact ⟨.branch, _, by rw [Stmt.json]; rfl, rfl, by simp⟩
    | some f => exact ⟨.branch, _, by rw [Stmt.json]; rfl, rfl, by simp⟩

theorem stmt_json {outer : Nat} (houter : outer < maxDepth) (s : Stmt) :
    stmt outer s.json.draft
      = if outer + s.json.depth ≤ maxDepth then .ok s else .error .malformed := by
  by_cases hdepth : outer + s.json.depth ≤ maxDepth
  case pos =>
    rw [if_pos hdepth]
    exact s.spelled_json.stmt_eq (by rwa [depth_draft])
  case neg =>
    obtain ⟨kind, fs, hjson, hkind, hfs⟩ := exists_fields s
    have hdeep : maxDepth - outer - 1 < fieldDepths fs := by
      simp only [hjson, depth, fieldDepths] at hdepth
      omega
    rw [if_neg hdepth, stmt, hjson]
    exact typed_of_deep hkind hfs hdeep _

theorem stmts_jsonItems (p : Program) : (drafts (Program.jsonItems p)).mapM (stmt 2)
    = if 2 + depths (Program.jsonItems p) ≤ maxDepth then .ok p else .error .malformed := by
  induction p with
  | nil => rfl
  | cons s p ih =>
    have hmax : 2 + max s.json.depth (depths (Program.jsonItems p)) ≤ maxDepth
      ↔ 2 + s.json.depth ≤ maxDepth ∧ 2 + depths (Program.jsonItems p) ≤ maxDepth := by omega
    rw [Program.jsonItems, drafts, depths, List.mapM_cons, stmt_json (by decide), ih]
    by_cases hs : 2 + s.json.depth ≤ maxDepth
    case neg =>
      rw [if_neg hs, if_neg fun h => hs (hmax.mp h).1]
      rfl
    by_cases hp : 2 + depths (Program.jsonItems p) ≤ maxDepth
    case neg =>
      rw [if_pos hs, if_neg hp, if_neg fun h => hp (hmax.mp h).2]
      rfl
    case pos =>
      rw [if_pos hs, if_pos hp, if_pos (hmax.mpr ⟨hs, hp⟩)]
      rfl

theorem program_json (p : Program) : program p.json.draft
    = if p.json.depth ≤ maxDepth then .ok p else .error .malformed := by
  have hdepth : p.json.depth = 2 + depths (Program.jsonItems p) := by
    simp only [Program.json, depth, fieldDepths]
    omega
  have hbody : program p.json.draft = (drafts (Program.jsonItems p)).mapM (stmt 2) := by
    have hread : program p.json.draft
        = (do orMismatched (some (← (drafts (Program.jsonItems p)).mapM (stmt 2)))) := rfl
    rw [hread]
    cases (drafts (Program.jsonItems p)).mapM (stmt 2) <;> rfl
  rw [hbody, hdepth, stmts_jsonItems]

end Json

theorem Program.ofJson_text {l : Json.Layout} (hl : l.Blank) (p : Program) :
    Program.ofJson (String.ofList (p.json.write l 0 []))
      = if p.json.depth ≤ Json.maxDepth then .ok p else .error .malformed := by
  simp only [Program.ofJson, Json.decode, Json.read_text hl p.allLegible_json, Json.program_json]
  by_cases h : p.json.depth ≤ Json.maxDepth
  case pos =>
    rw [if_pos h]
    rfl
  case neg =>
    rw [if_neg h]
    rfl

-- A saved program reads back as it was if no more than 127 brackets stand inside one another, and
-- as no JSON at all otherwise.
theorem Program.ofJson_saved (p : Program) :
    Program.ofJson p.json.compact = (if p.json.depth ≤ 127 then .ok p else .error .malformed)
      ∧ Program.ofJson p.json.pretty = (if p.json.depth ≤ 127 then .ok p else .error .malformed) :=
  ⟨p.ofJson_text Json.Layout.blank_compact, p.ofJson_text Json.Layout.blank_pretty⟩

-- Sums nest to the left: the longest one that can be read has 124 terms.
example : (Program.json [.assign "x" (Nat.repeat (.bin .add · (.num 1)) 123 (.num 1))]).depth
    = 127 := by
  decide +kernel

end Imp
