import Imp.Program.Json
import Imp.Proofs.Json.Nodes

/-!
The spellings of a program as JSON: each of its nodes may be written in any of the ways to write a
node. All spellings of a program are read as this program.
-/

namespace Imp

open Json (Draft Tagged Untagged Spread Unknown textDraft)

-- The spellings of an expression.
inductive Expr.Spelled : Expr → Draft → Prop
  | num {v d} (node : Tagged "NumberLiteral" [("value", .scalar (.num (.int v.toInt)))] d) :
      Spelled (.num v) d
  | var {x d} (node : Tagged "Identifier" [("name", textDraft x)] d) :
      Spelled (.var x) d
  | bin {op l r dl dr d} (left : Spelled l dl) (right : Spelled r dr)
      (node : Tagged "BinaryExpr"
        [("operator", textDraft op.symbol), ("left", dl), ("right", dr)] d) :
      Spelled (.bin op l r) d

inductive Cond.Spelled : Cond → Draft → Prop
  | mk {rel l r dl dr d} (left : l.Spelled dl) (right : r.Spelled dr)
      (node : Untagged [("operator", textDraft rel.symbol), ("left", dl), ("right", dr)] d) :
      Spelled ⟨rel, l, r⟩ d

-- The spellings of the name of an assigned variable.
def SpelledTarget (x : String) : Draft → Prop :=
  Untagged [("name", textDraft x)]

mutual

-- The spellings of a statement, and of the statements of a block.
inductive Stmt.Spelled : Stmt → Draft → Prop
  | declare {x e dx de d} (target : SpelledTarget x dx) (value : e.Spelled de)
      (node : Tagged "VarDeclaration" [("name", dx), ("value", de)] d) :
      Stmt.Spelled (.declare x e) d
  | assign {x e dx de d} (target : SpelledTarget x dx) (value : e.Spelled de)
      (node : Tagged "Assignment" [("name", dx), ("value", de)] d) :
      Stmt.Spelled (.assign x e) d
  | loop {c b dc ds d} (test : c.Spelled dc) (body : Block.Spelled b ds)
      (node : Tagged "While" [("condition", dc), ("body", .arr ds)] d) :
      Stmt.Spelled (.loop c b) d
  | branch {c t dc ds d} (test : c.Spelled dc) (consequent : Block.Spelled t ds)
      (node : Tagged "If"
        [("condition", dc), ("consequent", .arr ds), ("alternate", .scalar .null)] d) :
      Stmt.Spelled (.branch c t none) d
  -- An alternate that is null may be left out of an object.
  | branchOnly {c t dc ds kvs} (test : c.Spelled dc) (consequent : Block.Spelled t ds)
      (node : Spread (Unknown ["type", "condition", "consequent", "alternate"])
        [("type", textDraft "If"), ("condition", dc), ("consequent", .arr ds)] kvs) :
      Stmt.Spelled (.branch c t none) (.obj kvs)
  | branchElse {c t f dc ds es d} (test : c.Spelled dc) (consequent : Block.Spelled t ds)
      (alternate : Block.Spelled f es)
      (node : Tagged "If" [("condition", dc), ("consequent", .arr ds), ("alternate", .arr es)] d) :
      Stmt.Spelled (.branch c t (some f)) d

inductive Block.Spelled : Program → List Draft → Prop
  | nil : Block.Spelled [] []
  | cons {s p d ds} (head : s.Spelled d) (tail : Block.Spelled p ds) :
      Block.Spelled (s :: p) (d :: ds)

end

-- The spellings of a program.
inductive Program.Spelled : Program → Draft → Prop
  | mk {p ds d} (body : Block.Spelled p ds) (node : Untagged [("body", .arr ds)] d) : Spelled p d

open Json

variable {e : Expr} {c : Cond} {s : Stmt} {p : Program} {x : String} {d : Draft} {ds : List Draft}
  {n : Nat}

section Written

theorem Expr.spelled_json (e : Expr) : e.Spelled e.json.draft := by
  induction e with
  | num v => exact .num (tagged_draft _ [("value", .int v.toInt)])
  | var x => exact .var (tagged_draft _ [("name", .str x)])
  | bin op l r hl hr =>
    exact .bin hl hr
      (tagged_draft _ [("operator", .str op.symbol), ("left", l.json), ("right", r.json)])

theorem Cond.spelled_json (c : Cond) : c.Spelled c.json.draft :=
  .mk c.left.spelled_json c.right.spelled_json
    (untagged_draft [("operator", .str c.rel.symbol), ("left", c.left.json),
      ("right", c.right.json)])

theorem spelledTarget_json (x : String) : SpelledTarget x (Expr.var x).json.draft :=
  untagged_draft_type (.str "Identifier") [("name", .str x)]

theorem Block.spelled_json (p : Program) : Block.Spelled p (drafts (Program.jsonItems p)) := by
  induction p using Program.induction with
  | nil => exact .nil
  | declare x e k hk =>
    exact .cons (.declare (spelledTarget_json x) e.spelled_json
      (tagged_draft _ [("name", (Expr.var x).json), ("value", e.json)])) hk
  | assign x e k hk =>
    exact .cons (.assign (spelledTarget_json x) e.spelled_json
      (tagged_draft _ [("name", (Expr.var x).json), ("value", e.json)])) hk
  | loop c b k hb hk =>
    exact .cons (.loop c.spelled_json hb
      (tagged_draft _ [("condition", c.json), ("body", .arr (Program.jsonItems b))])) hk
  | branch c t k ht hk =>
    exact .cons (.branch c.spelled_json ht
      (tagged_draft _ [("condition", c.json), ("consequent", .arr (Program.jsonItems t)),
        ("alternate", .null)])) hk
  | branchElse c t f k ht hf hk =>
    exact .cons (.branchElse c.spelled_json ht hf
      (tagged_draft _ [("condition", c.json), ("consequent", .arr (Program.jsonItems t)),
        ("alternate", .arr (Program.jsonItems f))])) hk

theorem Stmt.spelled_json (s : Stmt) : s.Spelled s.json.draft := by
  have hblock := Block.spelled_json [s]
  rw [Program.jsonItems, drafts] at hblock
  cases hblock
  assumption

-- The document of a program is one of its spellings.
theorem Program.spelled_json (p : Program) : p.Spelled p.json.draft :=
  .mk (Block.spelled_json p)
    (untagged_draft_type (.str "Program") [("body", .arr (Program.jsonItems p))])

end Written

section Document

theorem Expr.Spelled.document (h : e.Spelled d) : d.Document := by
  induction h with
  | num node | var node => exact node.document (by simp [textDraft, Scalar.isSound])
  | bin _ _ node hl hr => exact node.document (by simp [hl, hr, textDraft, Scalar.isSound])

theorem Cond.Spelled.document (h : c.Spelled d) : d.Document := by
  obtain ⟨left, right, node⟩ := h
  exact node.document (by simp [left.document, right.document, textDraft, Scalar.isSound])

theorem SpelledTarget.document (h : SpelledTarget x d) : d.Document :=
  Untagged.document h (by simp [textDraft, Scalar.isSound])

mutual

theorem Stmt.Spelled.document {s : Stmt} {d : Draft} : s.Spelled d → d.Document
  | .declare target value node | .assign target value node =>
    node.document (by simp [target.document, value.document])
  | .loop test body node => node.document (by simpa [test.document] using body.document)
  | .branch test consequent node =>
    node.document (by simpa [test.document, Scalar.isSound] using consequent.document)
  | .branchOnly test consequent node => by
    refine node.document ?_ fun _ hf => hf.2.document
    simpa [test.document, textDraft, Scalar.isSound] using consequent.document
  | .branchElse test consequent alternate node =>
    node.document (by simpa [test.document] using ⟨consequent.document, alternate.document⟩)

theorem Block.Spelled.document {p : Program} {ds : List Draft} :
    Block.Spelled p ds → ∀ d ∈ ds, d.Document
  | .nil => nofun
  | .cons head tail => List.forall_mem_cons.mpr ⟨head.document, tail.document⟩

end

end Document

section Read

theorem Json.int32?_toInt (v : Int32) : Draft.int32? (.scalar (.num (.int v.toInt))) = some v := by
  have := v.le_toInt
  have := v.toInt_lt
  rw [Draft.int32?, if_pos (by omega), Int32.ofInt_toInt]

theorem Expr.Spelled.expr?_eq (h : e.Spelled d) (hd : d.depth ≤ n) : expr? n d = some e := by
  induction h generalizing n with
  | @num v d node =>
    obtain ⟨n, fs, rfl, htaken, -, hget⟩ := node.exists_takenFor exprKinds hd rfl (by simp)
    simp only [List.map_cons, List.map_nil] at hget
    simp [expr?, htaken.whole, exprOf?, hget, int32?_toInt]
  | @var x d node =>
    obtain ⟨n, fs, rfl, htaken, -, hget⟩ := node.exists_takenFor exprKinds hd rfl (by simp)
    simp only [List.map_cons, List.map_nil] at hget
    simp [expr?, htaken.whole, exprOf?, hget, Draft.text?, textDraft]
  | @bin op l r dl dr d _ _ node hl hr =>
    obtain ⟨n, fs, rfl, htaken, hn, hget⟩ := node.exists_takenFor exprKinds hd rfl (by simp)
    simp only [List.map_cons, List.map_nil] at hget
    have hl := hl (hn ("left", dl) (by simp))
    have hr := hr (hn ("right", dr) (by simp))
    simp [expr?, htaken.whole, exprOf?, hget, Draft.symbol?, textDraft, Operator.ofSymbol?_symbol,
      hl, hr]

theorem Cond.Spelled.cond?_eq (h : c.Spelled d) (hd : d.depth ≤ n) : cond? n d = some c := by
  obtain @⟨rel, l, r, dl, dr, d, left, right, node⟩ := h
  obtain ⟨n, rfl, hn⟩ := node.exists_depth hd
  obtain ⟨fs, huntyped, hget⟩ := node.get?_eq (by simp)
  simp only [List.map_cons, List.map_nil] at hget
  have hl := left.expr?_eq (Nat.le_succ_of_le (hn ("left", dl) (by simp)))
  have hr := right.expr?_eq (Nat.le_succ_of_le (hn ("right", dr) (by simp)))
  simp [cond?, huntyped, hget, Draft.symbol?, textDraft, Relation.ofSymbol?_symbol, hl, hr]

theorem SpelledTarget.target?_eq (h : SpelledTarget x d) : target? d = some x := by
  obtain ⟨fs, huntyped, hget⟩ := Untagged.get?_eq h (by simp)
  simp only [List.map_cons, List.map_nil] at hget
  simp [target?, huntyped, hget, Draft.text?, textDraft]

mutual

-- A statement is told by its type, and its fields are read with one bracket less.
theorem Stmt.Spelled.exists_takenFor {n : Nat} {s : Stmt} {d : Draft} (hd : d.depth ≤ n) :
    s.Spelled d → ∃ m kind fs, n = m + 1 ∧ TakenFor stmtKinds d kind fs ∧
      stmtOf? m (stmt? m) fs kind = some s
  | @Stmt.Spelled.declare x e dx de d target value node => by
    obtain ⟨n, fs, rfl, htaken, hn, hget⟩ := node.exists_takenFor stmtKinds hd rfl (by simp)
    simp only [List.map_cons, List.map_nil] at hget
    have he := value.expr?_eq (hn ("value", de) (by simp))
    exact ⟨n, _, fs, rfl, htaken, by simp [stmtOf?, hget, target.target?_eq, he]⟩
  | @Stmt.Spelled.assign x e dx de d target value node => by
    obtain ⟨n, fs, rfl, htaken, hn, hget⟩ := node.exists_takenFor stmtKinds hd rfl (by simp)
    simp only [List.map_cons, List.map_nil] at hget
    have he := value.expr?_eq (hn ("value", de) (by simp))
    exact ⟨n, _, fs, rfl, htaken, by simp [stmtOf?, hget, target.target?_eq, he]⟩
  | @Stmt.Spelled.loop c b dc ds d test body node => by
    obtain ⟨n, fs, rfl, htaken, hn, hget⟩ := node.exists_takenFor stmtKinds hd rfl (by simp)
    simp only [List.map_cons, List.map_nil] at hget
    have hc := test.cond?_eq (hn ("condition", dc) (by simp))
    have hb := body.mapM_stmt? (hn ("body", .arr ds) (by simp))
    exact ⟨n, _, fs, rfl, htaken, by simp [stmtOf?, hget, hc, block?, hb]⟩
  | @Stmt.Spelled.branch c t dc ds d test consequent node => by
    obtain ⟨n, fs, rfl, htaken, hn, hget⟩ := node.exists_takenFor stmtKinds hd rfl (by simp)
    simp only [List.map_cons, List.map_nil] at hget
    have hc := test.cond?_eq (hn ("condition", dc) (by simp))
    have ht := consequent.mapM_stmt? (hn ("consequent", .arr ds) (by simp))
    exact ⟨n, _, fs, rfl, htaken, by simp [stmtOf?, hget, hc, block?, alternate?, ht]⟩
  | @Stmt.Spelled.branchOnly c t dc ds kvs test consequent node => by
    obtain ⟨n, rfl, hn⟩ := node.exists_depth hd
    have hnodup : (["type", "condition", "consequent"]).Nodup := by simp
    have htaken : TakenFor stmtKinds (.obj kvs) .branch _ := node.takenFor rfl hnodup
    have hget := node.get?_eq hnodup ["condition", "consequent", "alternate"]
      fun f hf hmem => hf.1 (List.mem_cons_of_mem _ hmem)
    have hc := test.cond?_eq (hn ("condition", dc) (by simp))
    have ht := consequent.mapM_stmt? (hn ("consequent", .arr ds) (by simp))
    refine ⟨n, _, _, rfl, htaken, ?_⟩
    simp [stmtOf?, hget, List.lookup_cons, hc, block?, alternate?, ht]
  | @Stmt.Spelled.branchElse c t f dc ds es d test consequent alternate node => by
    obtain ⟨n, fs, rfl, htaken, hn, hget⟩ := node.exists_takenFor stmtKinds hd rfl (by simp)
    simp only [List.map_cons, List.map_nil] at hget
    have hc := test.cond?_eq (hn ("condition", dc) (by simp))
    have ht := consequent.mapM_stmt? (hn ("consequent", .arr ds) (by simp))
    have hf := alternate.mapM_stmt? (hn ("alternate", .arr es) (by simp))
    exact ⟨n, _, fs, rfl, htaken, by simp [stmtOf?, hget, hc, block?, alternate?, ht, hf]⟩

theorem Block.Spelled.mapM_stmt? {n : Nat} {p : Program} {ds : List Draft}
    (hd : (Draft.arr ds).depth ≤ n) : Block.Spelled p ds → ds.mapM (stmt? n) = some p
  | .nil => rfl
  | @Block.Spelled.cons s p d ds head tail => by
    obtain ⟨n, rfl, hn⟩ := Draft.exists_of_depth_arr hd
    have ⟨hd, hds⟩ := List.forall_mem_cons.mp hn
    obtain ⟨m, kind, fs, hm, htaken, hs⟩ := head.exists_takenFor (Nat.le_succ_of_le hd)
    have hp := tail.mapM_stmt? (n := n + 1) (by simpa [Draft.depth, Draft.depths_le_iff] using hds)
    cases hm
    have hs : stmt? (n + 1) d = some s := by simp [stmt?, htaken.whole, hs]
    rw [List.mapM_cons, hs, hp]
    rfl

end

theorem Stmt.Spelled.stmt_eq (h : s.Spelled d) {outer : Nat} (hd : outer + d.depth ≤ maxDepth) :
    stmt outer d = .ok s := by
  obtain ⟨m, kind, fs, hm, htaken, hs⟩ := h.exists_takenFor (n := maxDepth - outer) (by omega)
  have hm : maxDepth - outer - 1 = m := by omega
  rw [stmt, hm, htaken.stepwise m _ h.document (by omega), hs]
  rfl

theorem Block.Spelled.mapM_stmt {outer : Nat} {p : Program} {ds : List Draft}
    (hd : ∀ d ∈ ds, outer + d.depth ≤ maxDepth) : Block.Spelled p ds →
    ds.mapM (stmt outer) = .ok p
  | .nil => rfl
  | .cons head tail => by
    have ⟨hd, hds⟩ := List.forall_mem_cons.mp hd
    rw [List.mapM_cons, head.stmt_eq hd, tail.mapM_stmt hds]
    rfl

theorem programAmong_skip {pre kvs : List (Option String × Draft)} {found : Option Program}
    (h : ∀ f ∈ pre, (∃ k, f.1 = some k ∧ k ≠ "body") ∧ f.2.isWhole) :
    programAmong found (pre ++ kvs) = programAmong found kvs := by
  induction pre with
  | nil => rfl
  | cons f pre ih =>
    obtain ⟨k, d⟩ := f
    obtain ⟨⟨⟨k, rfl, hk⟩, hwhole⟩, hpre⟩ := List.forall_mem_cons.mp h
    rw [List.cons_append, programAmong, if_neg hk, if_pos hwhole, ih hpre]

theorem program_eq {b : Draft} (h : Untagged [("body", b)] d) (hdoc : d.Document)
    (hb : body b = .ok p) : program d = .ok p := by
  cases h with
  | arr => exact hb
  | @obj kvs spread =>
    have hadded : ∀ f, Idle ["body"] f → f.1 ≠ "body" := by
      rintro f (hf | ⟨hf, -⟩)
      case inl => exact hf.ne (by simp)
      case inr => simp [hf]
    obtain ⟨pre, post, rfl, hothers⟩ :=
      spread.exists_append (k := "body") (d := b) (by simp) hadded (by simp)
    have hwhole : ∀ f ∈ pre ++ post, (∃ k, f.1 = some k ∧ k ≠ "body") ∧ f.2.isWhole := by
      intro f hf
      have hmem : f ∈ pre ++ (some "body", b) :: post := by
        rw [List.mem_append, List.mem_cons]
        exact (List.mem_append.mp hf).imp_right .inr
      exact ⟨hothers f hf, (hdoc.value hmem).isWhole⟩
    have hpost : programAmong (some p) (post ++ []) = programAmong (some p) [] :=
      programAmong_skip fun f hf => hwhole f (List.mem_append_right pre hf)
    rw [List.append_nil] at hpost
    rw [program, programAmong_skip fun f hf => hwhole f (List.mem_append_left post hf),
      programAmong, if_pos rfl]
    simp [hb, bind, Except.bind, hpost, programAmong, orMismatched]

theorem Program.Spelled.document (h : p.Spelled d) : d.Document := by
  obtain ⟨body, node⟩ := h
  exact node.document (by simpa using body.document)

theorem Program.Spelled.program_eq (h : p.Spelled d) (hd : d.depth ≤ maxDepth) :
    program d = .ok p := by
  have hdoc := h.document
  cases h with
  | @mk ds _ body node =>
    obtain ⟨n, hn, hfields⟩ := node.exists_depth hd
    obtain ⟨m, rfl, hds⟩ := Draft.exists_of_depth_arr (hfields ("body", .arr ds) (by simp))
    refine Imp.program_eq node hdoc (body.mapM_stmt fun d hd => ?_)
    have := hds d hd
    omega

end Read

-- Every text of a spelling of a program is read as this program if no more than 127 brackets stand
-- inside one another.
theorem Program.ofJson_spelled {text : String} (h : p.Spelled d)
    (htext : Texts d.lexemes text.toList) (hd : d.depth ≤ 127) :
    Program.ofJson text = .ok p := by
  simp [Program.ofJson, decode, read_of_texts h.document.isWhole htext, h.program_eq hd, bind,
    Except.bind, pure, Except.pure]

-- A program, and a document of it with fields from the last to the first, arrays in place of nodes,
-- notes, a type for a condition but none for the program, and no alternate.
def raise : Program :=
  [.branch ⟨.gt, .var "x", .num 0⟩ [.assign "x" (.num 1)] none]

def raiseJson : Json :=
  .obj [("note", .bool true), ("body", .arr [.obj [
    ("note", .str "kept"),
    ("consequent", .arr [.arr [.str "Assignment", .arr [.str "x"],
      .arr [.str "NumberLiteral", .int 1]]]),
    ("condition", .obj [("type", .arr [.null]), ("right", .arr [.str "NumberLiteral", .int 0]),
      ("left", .obj [("name", .str "x"), ("type", .str "Identifier")]),
      ("operator", .str ">")]),
    ("type", .str "If")]])]

theorem spelled_raise : raise.Spelled raiseJson.draft := by
  have hassign : Stmt.Spelled (.assign "x" (.num 1)) _ := .assign .arr (.num .arr) .arr
  have hleft : Expr.Spelled (.var "x") (.obj _) :=
    .var (.obj (spread_reverse [] nofun))
  have htype : ∀ f ∈ [("type", Draft.arr [.scalar .null])], Idle ["operator", "left", "right"] f :=
    List.forall_mem_singleton.mpr (.inr ⟨rfl, by simp [Scalar.isSound]⟩)
  have htest : Cond.Spelled ⟨.gt, .var "x", .num 0⟩ (.obj _) :=
    .mk hleft (.num .arr) (.obj (spread_reverse _ htype))
  have hkept : ∀ f ∈ [("note", textDraft "kept")],
      Unknown ["type", "condition", "consequent", "alternate"] f :=
    List.forall_mem_singleton.mpr ⟨by simp, .str "kept"⟩
  have hnote : ∀ f ∈ [("note", Draft.scalar (.bool true))], Idle ["body"] f :=
    List.forall_mem_singleton.mpr (.inl ⟨by simp, .bool true⟩)
  exact .mk (.cons (.branchOnly htest (.cons hassign .nil) (spread_reverse _ hkept)) .nil)
    (.obj (spread_reverse _ hnote))

theorem ofJson_raise_spelled : raise.Spelled raiseJson.draft ∧
    Texts raiseJson.draft.lexemes raiseJson.pretty.toList ∧ raiseJson.draft.depth ≤ 127 ∧
    Program.ofJson raiseJson.pretty = .ok raise := by
  have htext : Texts raiseJson.draft.lexemes raiseJson.pretty.toList := by
    have hlegible : raiseJson.AllLegible := by
      simp [raiseJson, Json.AllLegible, Json.ItemsLegible, Json.FieldsLegible, Json.Legible,
        Json.Lexeme.maxSignificand]
    have htexts := texts_write Layout.blank_pretty 0 .nil raiseJson hlegible
    rw [List.append_nil] at htexts
    rwa [Json.pretty, String.toList_ofList]
  have hdepth : raiseJson.draft.depth ≤ 127 := by decide
  exact ⟨spelled_raise, htext, hdepth, Program.ofJson_spelled spelled_raise htext hdepth⟩

end Imp
