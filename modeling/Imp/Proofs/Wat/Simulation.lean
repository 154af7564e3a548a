import Imp.Proofs.Config
import Imp.Proofs.Env
import Imp.Proofs.Names
import Imp.Proofs.Wat.Layout
import Imp.Proofs.Wat.Machine
import Imp.Proofs.Wat.Validation

/-!
The WebAssembly code of a program does what the program does.
-/

open Relation StateTransition

namespace Imp

namespace Wat

variable {declared : List String} {env : Env}

-- The locals that stand for an environment: those without a binding are still zero.
def Locals.of (declared : List String) (env : Env) : Locals :=
  fun x => if x ∈ declared then some ((env.get? x).getD 0) else none

theorem arith_eq (op : Operator) (a b : Int32) : arith op a b = op.apply a b :=
  (op.apply_eq_ofInt a b).symm

theorem compare_eq (r : Relation) (a b : Int32) : compare r a b = if r.holds a b then 1 else 0 := by
  simp [compare, r.holds_eq_exact]

namespace Locals

theorem of_get {x : String} {v : Int32} (hx : x ∈ declared) (h : env.get? x = some v) :
    Locals.of declared env x = some v := by
  simp [Locals.of, hx, h]

theorem of_set {x : String} (hx : x ∈ declared) (v : Int32) :
    (fun y => if y = x then some v else Locals.of declared env y) =
      Locals.of declared (env.set x v) := by
  funext y
  by_cases h : y = x
  case pos => simp [Locals.of, h, hx]
  case neg => simp [Locals.of, h]

end Locals

end Wat

open Wat

section Operands

variable {declared : List String} {env : Env}

-- Code of an expression runs with any operands below its value, and any code behind it.
theorem Expr.wat_reaches {e : Expr} {c : Code} {v : Int32} (hc : e.wat declared = .ok c)
    (hv : e.eval env = .ok v) (stack : List Int32) (code : Code) (frames : List Frame) :
    Reaches State.step? ⟨.of declared env, stack, c ++ code, frames⟩
      ⟨.of declared env, v :: stack, code, frames⟩ := by
  induction e generalizing c v stack code with
  | num w =>
    cases hc
    cases hv
    exact .single rfl
  | var x =>
    simp only [wat, bind_eq_ok, pure_eq_ok] at hc
    obtain ⟨_, hx, rfl⟩ := hc
    have hx := mem_of_resolve hx
    simp only [eval] at hv
    split at hv
    case h_1 w hw =>
      cases hv
      refine .single ?_
      simp [State.step?, State.exec?, Locals.of_get hx hw]
    case h_2 => simp at hv
  | bin op l r ihl ihr =>
    simp only [wat, bind_eq_ok, pure_eq_ok] at hc
    obtain ⟨cl, hl, cr, hr, rfl⟩ := hc
    simp only [eval, bind_eq_ok, pure_eq_ok] at hv
    obtain ⟨a, ha, b, hb, rfl⟩ := hv
    have hla := ihl hl ha stack (cr ++ [.arith op] ++ code)
    have hrb := ihr hr hb (a :: stack) (.arith op :: code)
    have hop : Reaches State.step? ⟨.of declared env, b :: a :: stack, .arith op :: code, frames⟩
        ⟨.of declared env, op.apply a b :: stack, code, frames⟩ :=
      .single (by simp [State.step?, State.exec?, arith_eq])
    simp only [List.append_assoc, List.singleton_append] at hla ⊢
    exact hla.trans (hrb.trans hop)

theorem Cond.wat_reaches {test : Cond} {c : Code} {r : Bool} (hc : test.wat declared = .ok c)
    (hr : test.eval env = .ok r) (stack : List Int32) (code : Code) (frames : List Frame) :
    Reaches State.step? ⟨.of declared env, stack, c ++ code, frames⟩
      ⟨.of declared env, (if r then 1 else 0) :: stack, code, frames⟩ := by
  simp only [wat, bind_eq_ok, pure_eq_ok] at hc
  obtain ⟨cl, hl, cr, hcr, rfl⟩ := hc
  simp only [eval, bind_eq_ok, pure_eq_ok] at hr
  obtain ⟨a, ha, b, hb, rfl⟩ := hr
  have hla := Expr.wat_reaches hl ha stack (cr ++ [.compare test.rel] ++ code) frames
  have hrb := Expr.wat_reaches hcr hb (a :: stack) (.compare test.rel :: code) frames
  have hop : Reaches State.step?
      ⟨.of declared env, b :: a :: stack, .compare test.rel :: code, frames⟩
      ⟨.of declared env, (if test.rel.holds a b then 1 else 0) :: stack, code, frames⟩ :=
    .single (by simp [State.step?, State.exec?, compare_eq])
  simp only [List.append_assoc, List.singleton_append] at hla ⊢
  exact hla.trans (hrb.trans hop)

end Operands

namespace Wat

variable {declared : List String} {env : Env} {rest last : Code} {frames : List Frame} {k : Program}

-- The loop inside of the block of a loop whose labels come after the first `n`.
def round (n : Nat) (test body : Code) : Instr :=
  .loop (.loop (n + 2)) (test ++ [.eqz, .brIf (.exit (n + 1))] ++ body ++ [.br (.loop (n + 2))])

-- The block around it, with what follows it.
def outside (n : Nat) (rest : Code) : Frame :=
  ⟨some (.exit (n + 1)), rest, rest, []⟩

-- The code and the frames that have a program left to do, and then the code `last`.
inductive Pending (declared : List String) (last : Code) : Program → Code → List Frame → Prop
  | last : Pending declared last [] last []
  | block {p k : Program} {n n' : Nat} {c rest : Code} {frames : List Frame}
      (code : p.wat declared n = .ok (c, n')) (follows : Pending declared last k rest frames) :
      Pending declared last (p ++ k) (c ++ rest) frames
  | leave {k : Program} {rest : Code} {frames : List Frame}
      (follows : Pending declared last k rest frames) :
      Pending declared last k [] (⟨none, rest, rest, []⟩ :: frames)
  | again {test : Cond} {b k : Program} {n n' : Nat} {ct cb rest : Code} {frames : List Frame}
      (test_code : test.wat declared = .ok ct) (body_code : b.wat declared (n + 2) = .ok (cb, n'))
      (follows : Pending declared last k rest frames) :
      Pending declared last (.loop test b :: k) [.br (.loop (n + 2))]
        (⟨some (.loop (n + 2)), [round n ct cb], [], []⟩ :: outside n rest :: frames)

theorem write_reaches {x : String} {e : Expr} {ce : Code} {v : Int32} (hx : x ∈ declared)
    (he : e.wat declared = .ok ce) (hv : e.eval env = .ok v) :
    Reaches₁ State.step? ⟨.of declared env, [], ce ++ [.set x] ++ rest, frames⟩
      ⟨.of declared (env.set x v), [], rest, frames⟩ := by
  rw [List.append_assoc]
  refine .tail' (Expr.wat_reaches he hv [] _ _) ?_
  rw [← Locals.of_set hx]
  simp [State.step?, State.exec?, Locals.of, hx]

-- One test of a loop, from inside of its block.
theorem round_reaches {test : Cond} {b : Program} {n n' : Nat} {ct cb : Code} {r : Bool}
    (ht : test.wat declared = .ok ct) (hb : b.wat declared (n + 2) = .ok (cb, n'))
    (hr : test.eval env = .ok r) (hk : Pending declared last k rest frames) :
    ∃ code' frames',
      Pending declared last ((if r then b ++ [.loop test b] else []) ++ k) code' frames' ∧
      Reaches₁ State.step? ⟨.of declared env, [], [round n ct cb], outside n rest :: frames⟩
        ⟨.of declared env, [], code', frames'⟩ := by
  let inside : Frame := ⟨some (.loop (n + 2)), [round n ct cb], [], []⟩
  let body := cb ++ [.br (.loop (n + 2))]
  have henter : State.step? ⟨.of declared env, [], [round n ct cb], outside n rest :: frames⟩ =
      some ⟨.of declared env, [], ct ++ .eqz :: .brIf (.exit (n + 1)) :: body,
        inside :: outside n rest :: frames⟩ := by
    simp [State.step?, State.exec?, State.enter, round, inside, body]
  have htest := Cond.wat_reaches ht hr [] (.eqz :: .brIf (.exit (n + 1)) :: body)
    (inside :: outside n rest :: frames)
  cases r
  case true =>
    refine ⟨body, inside :: outside n rest :: frames, ?_, ?_⟩
    case refine_1 => simpa using Pending.block hb (.again ht hb hk)
    case refine_2 => exact .head' henter (htest.trans (.head rfl (.single rfl)))
  case false =>
    refine ⟨rest, frames, hk, .head' henter (htest.trans (.head rfl (.single ?_)))⟩
    simp [State.step?, State.exec?, State.branch?, inside, outside]

-- A conditional, when `p` with the code `c` is the block that its test chooses.
theorem branch_reaches {test : Cond} {p : Program} {n n' : Nat} {ct cs c : Code} {cf : Option Code}
    {r : Bool} (ht : test.wat declared = .ok ct) (hr : test.eval env = .ok r)
    (hc : p.wat declared n = .ok (c, n')) (hcr : (if r then cs else cf.getD []) = c)
    (hk : Pending declared last k rest frames) :
    ∃ code' frames', Pending declared last (p ++ k) code' frames' ∧
      Reaches₁ State.step? ⟨.of declared env, [], ct ++ [.branch cs cf] ++ rest, frames⟩
        ⟨.of declared env, [], code', frames'⟩ := by
  refine ⟨c ++ [], ⟨none, rest, rest, []⟩ :: frames, .block hc (.leave hk), ?_⟩
  rw [List.append_assoc]
  refine .tail' (Cond.wat_reaches ht hr [] _ _) ?_
  cases r <;> simp [State.step?, State.exec?, State.enter, ← hcr]

end Wat

open Wat

variable {declared : List String} {env : Env} {rest last : Code} {frames : List Frame} {k : Program}

theorem Stmt.wat_reaches {s : Stmt} {n n' : Nat} {c : Code} {a : Action}
    (hc : s.wat declared n = .ok (c, n')) (hd : s.introduced .declarations ⊆ declared)
    (ha : s.act env = .ok a) (hk : Pending declared last k rest frames) :
    ∃ code' frames', Pending declared last (a.block ++ k) code' frames' ∧
      Reaches₁ State.step? ⟨.of declared env, [], c ++ rest, frames⟩
        ⟨.of declared a.env, [], code', frames'⟩ := by
  cases acts_of_act ha with
  | @declare x e v hv =>
    simp only [wat, bind_eq_ok, pure_eq_ok, Prod.mk.injEq] at hc
    obtain ⟨ce, he, rfl, -⟩ := hc
    exact ⟨rest, frames, hk, write_reaches (hd (by simp [introduced])) he hv⟩
  | @assign x e before v hb hv =>
    simp only [wat, bind_eq_ok, pure_eq_ok, Prod.mk.injEq] at hc
    obtain ⟨_, hx, ce, he, rfl, -⟩ := hc
    exact ⟨rest, frames, hk, write_reaches (mem_of_resolve hx) he hv⟩
  | @loop test b r hr =>
    simp only [wat, bind_eq_ok, pure_eq_ok, Prod.mk.injEq] at hc
    obtain ⟨ct, ht, ⟨cb, n''⟩, hb, rfl, -⟩ := hc
    obtain ⟨code', frames', hp, hreach⟩ := round_reaches ht hb hr hk
    exact ⟨code', frames', hp, .head rfl hreach⟩
  | @branch test t f r hr =>
    cases f with
    | none =>
      simp only [wat, bind_eq_ok, pure_eq_ok, Prod.mk.injEq] at hc
      obtain ⟨ct, ht, ⟨cs, n'⟩, hs, rfl, -⟩ := hc
      cases r
      case true => exact branch_reaches ht hr hs rfl hk
      case false => exact branch_reaches (p := []) (n := n) ht hr rfl rfl hk
    | some f =>
      simp only [wat, bind_eq_ok, pure_eq_ok, Prod.mk.injEq] at hc
      obtain ⟨ct, ht, ⟨cs, n'⟩, hs, ⟨cf, n''⟩, hf, rfl, -⟩ := hc
      cases r
      case true => exact branch_reaches ht hr hs rfl hk
      case false => exact branch_reaches ht hr hf rfl hk

namespace Wat.Pending

theorem step {p : Program} {s : Stmt} {code : Code} {a : Action}
    (h : Pending declared last (s :: p) code frames) (hd : s.introduced .declarations ⊆ declared)
    (ha : s.act env = .ok a) :
    ∃ code' frames', Pending declared last (a.block ++ p) code' frames' ∧
      Reaches₁ State.step? ⟨.of declared env, [], code, frames⟩
        ⟨.of declared a.env, [], code', frames'⟩ := by
  generalize hq : s :: p = q at h
  induction h with
  | last => simp at hq
  | @block q k n n' c rest frames hc hk ih =>
    cases q with
    | nil =>
      cases hc
      exact ih hq
    | cons t q =>
      simp only [List.cons_append, List.cons.injEq] at hq
      obtain ⟨rfl, rfl⟩ := hq
      simp only [Program.wat, bind_eq_ok, pure_eq_ok, Prod.mk.injEq] at hc
      obtain ⟨⟨cs, n''⟩, hs, ⟨cq, _⟩, hcq, rfl, -⟩ := hc
      rw [List.append_assoc]
      exact Stmt.wat_reaches hs hd ha (.block hcq hk)
  | leave hk ih =>
    obtain ⟨code', frames', hp, hreach⟩ := ih hq
    exact ⟨code', frames', hp, .head (by simp [State.step?]) hreach⟩
  | again ht hb hk ih =>
    simp only [List.cons.injEq] at hq
    obtain ⟨rfl, rfl⟩ := hq
    cases Stmt.acts_of_act ha with
    | loop hr =>
      obtain ⟨code', frames', hp, hreach⟩ := round_reaches ht hb hr hk
      exact ⟨code', frames', hp, .head (by simp [State.step?, State.exec?, State.branch?]) hreach⟩

theorem reaches_last {locals : Locals} {code : Code} (h : Pending declared last [] code frames) :
    Reaches State.step? ⟨locals, [], code, frames⟩ ⟨locals, [], last, []⟩ := by
  generalize hq : [] = q at h
  induction h with
  | last => exact .refl
  | block hc hk ih =>
    obtain ⟨rfl, rfl⟩ := List.append_eq_nil_iff.mp hq.symm
    cases hc
    exact ih rfl
  | leave hk ih => exact .head (by simp [State.step?]) (ih hq)
  | again => simp at hq

end Wat.Pending

theorem Wat.result_reaches {result : Option String} (h : ∀ x ∈ result, x ∈ declared) :
    Reaches State.step? ⟨.of declared env, [], (result.map .get).toList, []⟩
      ⟨.of declared env, (result.map fun x => (env.get? x).getD 0).toList, [], []⟩ := by
  cases result with
  | none => exact .refl
  | some x =>
    have hx : x ∈ declared := h x rfl
    exact .single (by simp [State.step?, State.exec?, Locals.of, hx])

namespace Program

variable {o : Options} {p : Program}

-- What a configuration of a run is to a state of the machine that runs the program's code.
structure Runs (p : Program) (last : Code) (c : Config) (s : State) : Prop where
  inside : c.Scoped .declarations (p.names .declarations)
  locals : s.locals = .of (p.names .declarations) c.env
  stack : s.stack = []
  pending : Pending (p.names .declarations) last c.todo s.code s.frames

theorem Runs.next {c c' : Config} {s : State} (h : p.Runs last c s) (hn : c.next? = some c') :
    ∃ s', p.Runs last c' s' ∧ Reaches₁ State.step? s s' := by
  obtain ⟨t, todo, a, hc, ha, rfl⟩ := Config.exists_act_of_next? hn
  obtain ⟨locals, stack, code, frames⟩ := s
  obtain ⟨hs, rfl, rfl, hp⟩ := h
  have hd : t.introduced .declarations ⊆ p.names .declarations := by
    have := hs.todo
    rw [hc, introduced] at this
    exact (List.append_subset.mp this).1
  rw [hc] at hp
  obtain ⟨code', frames', hp', hreach⟩ := hp.step hd ha
  exact ⟨_, ⟨hs.next hn, rfl, rfl, hp'⟩, hreach⟩

-- The code of a program whose run comes to its end comes to its end as well, and leaves in each
-- local what the run leaves in the variable of that name. It is the code of the function that the
-- text reads as.
theorem wat_returns {text : String} {limit : Nat} {env : Env} (ht : p.watText o = .ok text)
    (hr : (p.run limit).outcome = .finished env) :
    ∃ m locals, p.watModule o = .ok m ∧ text = m.text o.indent ∧
      (o.Legible → (∀ x ∈ p.names .declarations, IsPlain x) → read? text = some m.toFunction) ∧
      m.Returns (o.result.map fun x => (env.get? x).getD 0).toList locals ∧
      (∀ x v, env.get? x = some v → locals x = some v) ∧
      ∀ x ∈ m.locals, env.get? x = none → locals x = some 0 := by
  simp only [watText, bind_eq_ok, pure_eq_ok] at ht
  obtain ⟨m, hm, rfl⟩ := ht
  obtain ⟨⟨n, hc⟩, hl, hres, hmem⟩ := watModule_eq_ok hm
  have hstart : p.Runs (m.result.map .get).toList ⟨.empty, p⟩ m.entry := by
    refine ⟨p.start_scoped _, ?_, rfl, ?_⟩
    case refine_1 => funext x; simp [Module.entry, Locals.of, hl]
    case refine_2 => simpa [Module.entry, Module.body] using Pending.block hc .last
  obtain ⟨⟨locals, stack, code, frames⟩, ⟨hs, hlocals, hstack, hp⟩, hreach⟩ :=
    simulation hr (fun _ hn h => h.next hn) hstart
  simp only at hlocals hstack hp
  subst hlocals hstack
  refine ⟨m, .of (p.names .declarations) env, hm, rfl, read?_of_watModule hm,
    (hreach.trans hp.reaches_last).trans ?_, fun x v hx => ?_, fun x hx hn => ?_⟩
  case refine_1 => exact hres ▸ result_reaches (by simpa [hl, hres] using hmem)
  case refine_2 => exact Locals.of_get (hs.env hx) hx
  case refine_3 => simp [Locals.of, ← hl, hx, hn]

-- The factorial of three, and a conditional behind the loop.
def factorial : Program :=
  [.declare "n" (.num 3), .declare "acc" (.num 1),
    .loop ⟨.gt, .var "n", .num 1⟩
      [.assign "acc" (.bin .mul (.var "acc") (.var "n")),
        .assign "n" (.bin .sub (.var "n") (.num 1))],
    .branch ⟨.eq, .var "acc", .num 6⟩ [.assign "n" (.num 0)] none]

theorem factorial_returns :
    ∃ text, ∃ m : Module, ∃ locals, factorial.watText { result := some "acc" } = .ok text ∧
      read? text = some m.toFunction ∧ m.Returns [6] locals ∧ locals "n" = some 0 := by
  have hr : (factorial.run 20).outcome = .finished ((Env.empty.set "n" 0).set "acc" 6) := by decide
  have ⟨text, ht⟩ : ∃ text, factorial.watText { result := some "acc" } = .ok text := ⟨_, rfl⟩
  have ⟨m, locals, _, _, hread, hreturns, hlocals, _⟩ := wat_returns ht hr
  have hread := hread ⟨by simp, by decide, by simp +decide⟩ (by simp +decide)
  exact ⟨text, m, locals, ht, hread, hreturns, hlocals "n" 0 rfl⟩

end Program

end Imp
