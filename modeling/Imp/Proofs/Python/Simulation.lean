import Imp.Proofs.Config
import Imp.Proofs.Python.Layout
import Imp.Proofs.Python.Machine

/-!
The Python text of a program does what the program does, as long as no value leaves the range.
-/

open Relation StateTransition

namespace Imp

theorem Env.ints_set (env : Env) (x : String) (v : Int32) :
    (env.set x v).ints = fun y => if y = x then some v.toInt else env.ints y := by
  funext y
  by_cases h : y = x <;> simp [ints, h]

namespace Python

-- The integers that are values.
def InRange (i : Int) : Prop :=
  -2147483648 ≤ i ∧ i < 2147483648

instance (i : Int) : Decidable (InRange i) :=
  inferInstanceAs (Decidable (_ ∧ _))

variable {d : Dialect} {env : Env} {k : Program} {ks : List Stmt}

theorem eval?_inPython {e : Imp.Expr} (he : e.Writable d) (σ : Vars) :
    e.inPython.eval? σ = e.exact σ := by
  induction e with
  | num v =>
    have hv : (v.toInt.toNat : Int) = v.toInt := Int.toNat_of_nonneg (Int32.le_iff_toInt_le.mp he)
    exact congrArg some hv
  | var x => rfl
  | bin op l r ihl ihr =>
    simp [Imp.Expr.inPython, Expr.eval?, Imp.Expr.exact, ihl he.1, ihr he.2]

theorem eval?_of_eval {e : Imp.Expr} {v : Int32} (he : e.Writable d)
    (hr : ∀ i, e.exact env.ints = some i → InRange i) (hv : e.eval env = .ok v) :
    e.inPython.eval? env.ints = some v.toInt := by
  obtain ⟨i, hi, rfl⟩ := Imp.Expr.exact_of_eval hv
  have ⟨hle, hlt⟩ := hr i hi
  rw [eval?_inPython he, hi, Int32.toInt_ofInt_of_le hle hlt]

theorem test_eval?_of_eval {c : Cond} {r : Bool} (hc : ∀ e ∈ [c.left, c.right], e.Writable d)
    (hr : ∀ e ∈ [c.left, c.right], ∀ i, e.exact env.ints = some i → InRange i)
    (hv : c.eval env = .ok r) : c.inPython.eval? env.ints = some r := by
  simp only [Cond.eval, bind_eq_ok, pure_eq_ok] at hv
  obtain ⟨a, ha, b, hb, rfl⟩ := hv
  have hl := eval?_of_eval (hc c.left (by simp)) (hr c.left (by simp)) ha
  have hr := eval?_of_eval (hc c.right (by simp)) (hr c.right (by simp)) hb
  simp [Cond.inPython, Test.eval?, hl, hr, Relation.holds_eq_exact]

-- The statements that have a program left to do. Some `pass` may stand between them.
inductive Pending : Program → List Stmt → Prop
  | nil : Pending [] []
  | stmt {k : Program} {ks : List Stmt} (s : Imp.Stmt) (rest : Pending k ks) :
      Pending (s :: k) (s.inPython :: ks)
  | pass {k : Program} {ks : List Stmt} (rest : Pending k ks) : Pending k (.pass :: ks)

namespace Pending

theorem append (p : Program) (h : Pending k ks) : Pending (p ++ k) (p.inPython ++ ks) := by
  induction p with
  | nil => exact h
  | cons s p ih => exact .stmt s ih

theorem suite (p : Program) (h : Pending k ks) : Pending (p ++ k) (suite p.inPython ++ ks) := by
  cases p with
  | nil => exact .pass h
  | cons s p => exact h.append (s :: p)

theorem step_stmt {s : Imp.Stmt} {a : Action} (hs : s.Writable d)
    (hr : ∀ e ∈ s.exprs, ∀ i, e.exact env.ints = some i → InRange i) (ha : s.act env = .ok a)
    (rest : Pending k ks) :
    ∃ ks', Pending (a.block ++ k) ks' ∧
      State.step? ⟨env.ints, s.inPython :: ks⟩ = some ⟨a.env.ints, ks'⟩ := by
  cases Stmt.acts_of_act ha with
  | @declare x e v hv | @assign x e before v hb hv =>
    have he := eval?_of_eval (hs.exprs e (by simp [Stmt.exprs])) (hr e (by simp [Stmt.exprs])) hv
    exact ⟨ks, rest, by simp [Stmt.inPython, State.step?, he, Env.ints_set]⟩
  | @loop test b r hv =>
    have ht := test_eval?_of_eval hs.exprs hr hv
    cases r
    case true =>
      refine ⟨_, by simpa using suite b (.stmt (.loop test b) rest), ?_⟩
      simp [Stmt.inPython, State.step?, ht]
    case false => exact ⟨ks, rest, by simp [Stmt.inPython, State.step?, ht]⟩
  | @branch test t f r hv =>
    have ht := test_eval?_of_eval hs.exprs hr hv
    cases f with
    | none =>
      cases r
      case true => exact ⟨_, suite t rest, by simp [Stmt.inPython, State.step?, ht]⟩
      case false => exact ⟨ks, rest, by simp [Stmt.inPython, State.step?, ht]⟩
    | some f =>
      cases r
      case true => exact ⟨_, suite t rest, by simp [Stmt.inPython, State.step?, ht]⟩
      case false => exact ⟨_, suite f rest, by simp [Stmt.inPython, State.step?, ht]⟩

theorem step {s : Imp.Stmt} {a : Action} (hs : s.Writable d)
    (hr : ∀ e ∈ s.exprs, ∀ i, e.exact env.ints = some i → InRange i) (ha : s.act env = .ok a)
    (h : Pending (s :: k) ks) :
    ∃ ks', Pending (a.block ++ k) ks' ∧
      Reaches₁ State.step? ⟨env.ints, ks⟩ ⟨a.env.ints, ks'⟩ := by
  generalize hq : s :: k = q at h
  induction h with
  | nil => simp at hq
  | stmt t rest =>
    simp only [List.cons.injEq] at hq
    obtain ⟨rfl, rfl⟩ := hq
    have ⟨ks', hp, hstep⟩ := rest.step_stmt hs hr ha
    exact ⟨ks', hp, .single hstep⟩
  | pass rest ih =>
    have ⟨ks', hp, hreach⟩ := ih hq
    exact ⟨ks', hp, .head rfl hreach⟩

theorem ends {σ : Vars} (h : Pending [] ks) : Reaches State.step? ⟨σ, ks⟩ ⟨σ, []⟩ := by
  generalize hq : [] = q at h
  induction h with
  | nil => exact .refl
  | stmt => simp at hq
  | pass rest ih => exact .head rfl (ih hq)

end Pending

end Python

open Python

namespace Program

variable {p : Program} {env : Env} {limit : Nat} {text : String}

-- What a configuration of a run is to a state of the machine that runs the program's text.
structure Follows (p : Program) (c : Config) (t : State) : Prop where
  parts : c.todo.parts ⊆ p.parts
  vars : t.vars = c.env.ints
  pending : Pending c.todo t.todo

theorem Follows.next {d : Dialect} {c c' : Config} {t : State} (h : p.Follows c t)
    (hp : p.Writable d) (hv : ∀ i ∈ c.values, InRange i) (hn : c.next? = some c') :
    ∃ t', p.Follows c' t' ∧ Reaches₁ State.step? t t' := by
  obtain ⟨s, todo, a, hc, ha, rfl⟩ := Config.exists_act_of_next? hn
  obtain ⟨vars, todo'⟩ := t
  obtain ⟨hparts, rfl, hpending⟩ := h
  rw [hc] at hparts hpending hv
  have hs : s.Writable d := hp s (hparts (List.mem_append_left _ s.mem_parts_self))
  have ⟨ks, hks, hreach⟩ :=
    hpending.step hs (fun e he i hi => hv i (Config.mem_values he hi)) ha
  refine ⟨⟨a.env.ints, ks⟩, ⟨?_, rfl, hks⟩, hreach⟩
  exact List.Subset.trans (Config.parts_subset_of_next? hn) (hc ▸ hparts)

-- The text of a program whose run comes to its end without ever leaving the range is read, and what
-- it is read as comes to its end as well, with the very variables of the run.
theorem python_ends (ht : Dialect.full.parse text = .ok p)
    (hk : ∀ x ∈ p.mentions, x ∉ Python.keywords) (hr : (p.run limit).outcome = .finished env)
    (hv : ∀ c ∈ p.path limit, ∀ i ∈ c.values, InRange i) :
    ∃ ss, Python.read? (p.pythonText Python.defaultIndent) = some ss ∧ Python.Ends ss env.ints := by
  have hp := Dialect.writable_of_parse ht
  have hl : ∀ s ∈ p.parts, s.Legible .full := fun s hs =>
    (hp s hs).legible fun x hx => hk x (List.mem_flatMap.mpr ⟨s, hs, hx⟩)
  have hstart : p.Follows ⟨.empty, p⟩ ⟨fun _ => none, suite p.inPython⟩ :=
    ⟨List.Subset.refl _, rfl, by simpa using Pending.suite p .nil⟩
  have ⟨⟨vars, ks⟩, ⟨_, hvars, hpending⟩, hreach⟩ :=
    simulation hr (fun hpath hn h => h.next hp (hv _ hpath) hn) hstart
  refine ⟨suite p.inPython, read?_pythonText isIndent_default hl, ?_⟩
  have hvars : vars = env.ints := hvars
  exact hreach.trans (hvars ▸ hpending.ends)

-- A countdown that skips one number, with an empty block and operators grouped to the right.
def skipping : Program :=
  [.declare "n" (.num 3), .declare "s" (.num 0),
    .loop ⟨.gt, .var "n", .num 0⟩
      [.branch ⟨.eq, .var "n", .num 2⟩ []
        (some [.assign "s" (.bin .sub (.var "s") (.bin .sub (.var "n") (.num 5)))]),
        .assign "n" (.bin .sub (.var "n") (.num 1))]]

theorem skipping_ends :
    ∃ ss σ, Python.read? (skipping.pythonText Python.defaultIndent) = some ss ∧
      Python.Ends ss σ ∧ σ "n" = some 0 ∧ σ "s" = some 6 ∧ σ "x" = none := by
  have ht : Dialect.full.parse
      "var n=3;var s=0;while(n>0)\x7bif(n==2)\x7b\x7delse\x7bs=s-(n-5);\x7dn=n-1;\x7d" =
        .ok skipping := by
    decide +kernel
  have hk : ∀ x ∈ skipping.mentions, x ∉ Python.keywords := by decide
  have hr : (skipping.run 14).outcome = .finished ((Env.empty.set "n" 0).set "s" 6) := by decide
  have hv : ∀ c ∈ skipping.path 14, ∀ i ∈ c.values, InRange i := by decide
  have ⟨ss, hread, hends⟩ := python_ends ht hk hr hv
  exact ⟨ss, _, hread, hends, rfl, rfl, rfl⟩

end Program

end Imp
