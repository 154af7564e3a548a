import Imp.Program.Parser
import Imp.Proofs.Grammar

/-!
The parser reads everything that the grammar derives.
-/

namespace Imp

open Grammar

namespace Parser

open Token (Kind)

namespace State

variable {d : Dialect} {s t : State} {k : Kind} {ks ls : List Kind}

-- The state after tokens of some kinds, if each of them can stand in its place.
def run? (d : Dialect) (s : State) (ks : List Kind) : Option State :=
  ks.foldlM (next? d) s

@[simp]
theorem run?_nil : s.run? d [] = some s :=
  rfl

theorem run?_cons : s.run? d (k :: ks) = (s.next? d k).bind (run? d · ks) :=
  List.foldlM_cons ..

theorem run?_append : s.run? d (ks ++ ls) = (s.run? d ks).bind (run? d · ls) :=
  List.foldlM_append ..

theorem run?_cons_of_next? (h : s.next? d k = some t) : s.run? d (k :: ks) = t.run? d ks := by
  simp [run?_cons, h]

theorem run?_append_of_run? (h : s.run? d ks = some t) : s.run? d (ks ++ ls) = t.run? d ls := by
  simp [run?_append, h]

-- The end of input is never read.
theorem next?_eof (d : Dialect) (s : State) : s.next? d .eof = none := by
  obtain ⟨frames, before, mode⟩ := s
  cases mode with
  | operator p e =>
    obtain ⟨role, level, outer⟩ := p
    cases outer <;> cases role <;> rfl
  | _ => rfl

theorem eof_not_mem_of_run? (h : s.run? d ks = some t) : .eof ∉ ks := by
  induction ks generalizing s with
  | nil => simp
  | cons k ks ih =>
    rw [run?_cons, Option.bind_eq_some_iff] at h
    have ⟨u, hu, hrun⟩ := h
    have hk : k ≠ .eof := fun hk => by simp [hk, next?_eof] at hu
    simp [ih hrun, hk.symm]

theorem feed_eq_ok {ts : List Token} :
    s.feed d ts = .ok t ↔ s.run? d (ts.map Token.kind) = some t := by
  induction ts generalizing s with
  | nil => simp [feed]
  | cons token ts ih =>
    simp only [feed, List.map_cons, run?_cons]
    cases s.next? d token.kind with
    | none => simp
    | some s' => simp [ih]

theorem finish_eq_ok {token : Token} {p : Program} :
    s.finish token = .ok p ↔ s.program? = some p := by
  simp only [finish]
  split <;> simp_all

end State

open State

variable {d : Dialect} {frames : List Frame} {before : Program}

-- What it takes to have read an expression: a factor is the operand that was waited for, a term an
-- operand of a sum, and a sum is what its level of parentheses adds up to.
def Reads (d : Dialect) : Level → List Kind → Expr → Prop
  | .factor, ks, e => ∀ frames before p,
    run? d ⟨frames, before, .operand p⟩ ks = some ⟨frames, before, p.after e⟩
  | .term, ks, e => ∀ frames before p, p.level.product = none →
    run? d ⟨frames, before, .operand p⟩ ks = some ⟨frames, before, .operator p e⟩
  | .arith, ks, e => ∀ frames before role outer, ∃ level last, level.plus last = e ∧
    run? d ⟨frames, before, .operand ⟨role, .empty, outer⟩⟩ ks =
      some ⟨frames, before, .operator ⟨role, level, outer⟩ last⟩

theorem after_of_product {p : Place} (h : p.level.product = none) (e : Expr) :
    p.after e = .operator p e := by
  obtain ⟨role, ⟨sum, _⟩, outer⟩ := p
  subst h
  rfl

theorem run?_factors {links : List Link} (ops : ∀ l ∈ links, l.op = .mul)
    (rest : ∀ l ∈ links, Reads d .factor l.kinds l.tree) {p : Place} (hp : p.level.product = none)
    (e : Expr) :
    run? d ⟨frames, before, .operator p e⟩ (links.flatMap Link.spelled) =
      some ⟨frames, before, .operator p (fold e links)⟩ := by
  induction links generalizing e with
  | nil => rfl
  | cons l links ih =>
    have hop := ops l (by simp)
    have hl := rest l (by simp) frames before { p with level := { p.level with product := some e } }
    have ih := ih (fun l hl => ops l (by simp [hl])) (fun l hl => rest l (by simp [hl]))
      (.bin .mul e l.tree)
    have hafter : Place.after { p with level := { p.level with product := some e } } l.tree =
        .operator p (.bin .mul e l.tree) := by
      simp [Place.after, Pending.times, ← hp]
    rw [hafter] at hl
    rw [List.flatMap_cons, Link.spelled, hop, List.cons_append, run?_cons_of_next? rfl,
      run?_append_of_run? hl, ih]
    simp [fold, hop]

theorem run?_terms {links : List Link} (ops : ∀ l ∈ links, l.op = .add ∨ l.op = .sub)
    (rest : ∀ l ∈ links, Reads d .term l.kinds l.tree) (frames : List Frame) (before : Program)
    (role : Role) (outer : List Pending) (level : Pending) (e : Expr) :
    ∃ level' last, level'.plus last = fold (level.plus e) links ∧
      run? d ⟨frames, before, .operator ⟨role, level, outer⟩ e⟩ (links.flatMap Link.spelled) =
        some ⟨frames, before, .operator ⟨role, level', outer⟩ last⟩ := by
  induction links generalizing level e with
  | nil => exact ⟨level, e, rfl, rfl⟩
  | cons l links ih =>
    let level₁ : Pending := ⟨some (level.plus e, l.op), none⟩
    have hl := rest l (by simp) frames before ⟨role, level₁, outer⟩ rfl
    have hnext : next? d ⟨frames, before, .operator ⟨role, level, outer⟩ e⟩ (.operator l.op) =
        some ⟨frames, before, .operand ⟨role, level₁, outer⟩⟩ := by
      cases ops l (by simp) with
      | inl h | inr h => simp [next?, atOperator?, level₁, h]
    have ⟨level', last, hlast, hrun⟩ := ih (fun l hl => ops l (by simp [hl]))
      (fun l hl => rest l (by simp [hl])) level₁ l.tree
    refine ⟨level', last, hlast, ?_⟩
    rw [List.flatMap_cons, Link.spelled, List.cons_append, run?_cons_of_next? hnext,
      run?_append_of_run? hl, hrun]

theorem reads_of_derives {level : Level} {ks : List Kind} {e : Expr} (h : Derives level ks e) :
    Reads d level ks e := by
  induction h with
  | number | name => exact fun _ _ _ => rfl
  | @parens ks e inner ih =>
    intro frames before p
    have ⟨level, last, hlast, hrun⟩ := ih frames before p.role (p.level :: p.outer)
    rw [run?_cons_of_next? rfl, run?_append_of_run? hrun, run?_cons_of_next? rfl, ← hlast]
    rfl
  | term first ops rest ih ihs =>
    intro frames before p hp
    have hfirst := ih frames before p
    rw [after_of_product hp] at hfirst
    rw [run?_append_of_run? hfirst, run?_factors ops ihs hp]
  | @arith ks e links first ops rest ih ihs =>
    intro frames before role outer
    have hfirst := ih frames before ⟨role, .empty, outer⟩ rfl
    have ⟨level, last, hlast, hrun⟩ := run?_terms ops ihs frames before role outer .empty e
    exact ⟨level, last, hlast, (run?_append_of_run? hfirst).trans hrun⟩

-- A whole expression of a statement, and the token behind it.
theorem run?_expression {ks : List Kind} {e : Expr} {role : Role} {k : Kind} {t : State}
    (h : Derives .arith ks e) (ht : ∀ mode, atEnd? ⟨frames, before, mode⟩ e role k = some t) :
    run? d ⟨frames, before, .operand role.place⟩ (ks ++ [k]) = some t := by
  have ⟨level, last, hlast, hrun⟩ := reads_of_derives (d := d) h frames before role []
  have hnext : next? d ⟨frames, before, .operator ⟨role, level, []⟩ last⟩ k = some t := by
    rw [← ht (.operator ⟨role, level, []⟩ last), ← hlast]
    cases k with
    | operator op => have := ht .statement; cases role <;> simp [atEnd?] at this
    | _ => rfl
  exact (run?_append_of_run? hrun).trans (run?_cons_of_next? hnext)

theorem run?_condition {ks ls : List Kind} {test : Cond} (h : Condition ks test) (g : Guard) :
    run? d ⟨frames, before, .openParen g⟩ (.openParen :: (ks ++ .closeParen :: ls)) =
      run? d ⟨frames, before, .openBrace (g.opening test)⟩ ls := by
  cases h with
  | @mk lks rks l r rel left right =>
    have hl : run? d ⟨frames, before, .operand (Role.left g).place⟩ (lks ++ [.relation rel]) =
        some ⟨frames, before, .operand (Role.right g l rel).place⟩ :=
      run?_expression left fun _ => rfl
    have hr : run? d ⟨frames, before, .operand (Role.right g l rel).place⟩ (rks ++ [.closeParen]) =
        some ⟨frames, before, .openBrace (g.opening ⟨rel, l, r⟩)⟩ :=
      run?_expression right fun _ => rfl
    rw [run?_cons_of_next? rfl, List.append_assoc, List.cons_append, List.append_cons,
      run?_append_of_run? hl, List.append_cons, run?_append_of_run? hr]

theorem next?_of_settled {s t : State} {k : Kind} (hs : s.settled = t) (ht : t.mode = .statement)
    (hk : k ≠ .elseWord) : s.next? d k = t.atStatement? d k := by
  subst hs
  obtain ⟨frames, before, mode⟩ := s
  cases mode with
  | statement => rfl
  | elseWord => cases k <;> first | rfl | exact (hk rfl).elim
  | _ => simp [settled] at ht

-- What it takes to have read statements, also where `else` could follow the statement before them.
def ReadsAll (d : Dialect) (ks : List Kind) (p : Program) : Prop :=
  ∀ {s : State} {frames before}, s.settled = ⟨frames, before, .statement⟩ →
    ∃ t, s.run? d ks = some t ∧ t.settled = ⟨frames, p.reverse ++ before, .statement⟩

theorem run?_block {ks ls : List Kind} {p : Program} {o : Opening} {t : State} (h : ReadsAll d ks p)
    (ht : close? ⟨⟨o, before⟩ :: frames, p.reverse, .statement⟩ = some t) :
    run? d ⟨frames, before, .openBrace o⟩ (.openBrace :: (ks ++ .closeBrace :: ls)) =
      t.run? d ls := by
  have ⟨u, hrun, hu⟩ := @h ⟨⟨o, before⟩ :: frames, [], .statement⟩ _ _ rfl
  rw [List.append_nil] at hu
  have hnext := (next?_of_settled (d := d) (k := .closeBrace) hu rfl (by simp)).trans ht
  rw [run?_cons_of_next? rfl, run?_append_of_run? hrun, run?_cons_of_next? hnext]

theorem reads_declare {ks : List Kind} {e : Expr} (h : Derives .arith ks e) (x : String) :
    ReadsAll d (.varWord :: .ident x :: .assign :: (ks ++ [.semicolon])) [.declare x e] := by
  intro s frames before hs
  have hnext := next?_of_settled (d := d) (k := .varWord) hs rfl (by simp)
  refine ⟨⟨frames, .declare x e :: before, .statement⟩, ?_, rfl⟩
  rw [run?_cons_of_next? hnext, run?_cons_of_next? rfl, run?_cons_of_next? rfl]
  exact run?_expression h fun _ => rfl

theorem reads_assign {ks : List Kind} {e : Expr} (h : Derives .arith ks e) (x : String) :
    ReadsAll d (.ident x :: .assign :: (ks ++ [.semicolon])) [.assign x e] := by
  intro s frames before hs
  have hnext := next?_of_settled (d := d) (k := .ident x) hs rfl (by simp)
  refine ⟨⟨frames, .assign x e :: before, .statement⟩, ?_, rfl⟩
  rw [run?_cons_of_next? hnext, run?_cons_of_next? rfl]
  exact run?_expression h fun _ => rfl

theorem reads_loop {ks bs : List Kind} {test : Cond} {b : Program} (hc : Condition ks test)
    (hb : ReadsAll d bs b) :
    ReadsAll d (.whileWord :: .openParen :: (ks ++ .closeParen :: .openBrace ::
      (bs ++ [.closeBrace]))) [.loop test b] := by
  intro s frames before hs
  have hnext := next?_of_settled (d := d) (k := .whileWord) hs rfl (by simp)
  refine ⟨⟨frames, .loop test b :: before, .statement⟩, ?_, rfl⟩
  rw [run?_cons_of_next? hnext, run?_condition hc .loop]
  exact run?_block hb (by simp [close?, Guard.opening])

theorem reads_branch {ks ts : List Kind} {test : Cond} {t : Program} (has : d.hasConditionals)
    (hc : Condition ks test) (ht : ReadsAll d ts t) :
    ReadsAll d (.ifWord :: .openParen :: (ks ++ .closeParen :: .openBrace ::
      (ts ++ [.closeBrace]))) [.branch test t none] := by
  intro s frames before hs
  have hnext := next?_of_settled (d := d) (k := .ifWord) hs rfl (by simp)
  rw [atStatement?, if_pos has] at hnext
  refine ⟨⟨frames, before, .elseWord test t⟩, ?_, rfl⟩
  rw [run?_cons_of_next? hnext, run?_condition hc .branch]
  exact run?_block ht (by simp [close?, Guard.opening])

theorem reads_branchElse {ks ts fs : List Kind} {test : Cond} {t f : Program}
    (has : d.hasConditionals) (hc : Condition ks test) (ht : ReadsAll d ts t)
    (hf : ReadsAll d fs f) :
    ReadsAll d (.ifWord :: .openParen :: (ks ++ .closeParen :: .openBrace ::
      (ts ++ .closeBrace :: .elseWord :: .openBrace :: (fs ++ [.closeBrace]))))
      [.branch test t (some f)] := by
  intro s frames before hs
  have hnext := next?_of_settled (d := d) (k := .ifWord) hs rfl (by simp)
  rw [atStatement?, if_pos has] at hnext
  have hconsequent : close? ⟨⟨.consequent test, before⟩ :: frames, t.reverse, .statement⟩ =
      some ⟨frames, before, .elseWord test t⟩ := by simp [close?]
  refine ⟨⟨frames, .branch test t (some f) :: before, .statement⟩, ?_, rfl⟩
  rw [run?_cons_of_next? hnext, run?_condition hc .branch, Guard.opening,
    run?_block ht hconsequent, run?_cons_of_next? rfl]
  exact run?_block hf (by simp [close?])

mutual

theorem reads_statement {ks : List Kind} {s : Stmt} (h : Statement d ks s) : ReadsAll d ks [s] := by
  cases h with
  | declare x value => exact reads_declare value x
  | assign x value => exact reads_assign value x
  | loop condition body => exact reads_loop condition (reads_statements body)
  | branch has condition consequent =>
    exact reads_branch has condition (reads_statements consequent)
  | branchElse has condition consequent alternate =>
    exact reads_branchElse has condition (reads_statements consequent) (reads_statements alternate)

theorem reads_statements {ks : List Kind} {p : Program} (h : Statements d ks p) :
    ReadsAll d ks p := by
  cases h with
  | nil => exact fun hs => ⟨_, rfl, hs⟩
  | cons head tail =>
    intro s frames before hs
    have ⟨t, hrun, ht⟩ := reads_statement head hs
    have ⟨u, hrun', hu⟩ := reads_statements tail ht
    exact ⟨u, (run?_append_of_run? hrun).trans hrun', by simpa using hu⟩

end

theorem program?_of_statements {ks : List Kind} {p : Program} (h : Statements d ks p) :
    ∃ s, start.run? d ks = some s ∧ s.program? = some p := by
  have ⟨s, hrun, hs⟩ := @reads_statements d ks p h start [] [] rfl
  exact ⟨s, hrun, by simp [program?, hs]⟩

end Parser

end Imp
