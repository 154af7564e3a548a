import Imp.Proofs.Asm.Decrement
import Imp.Proofs.Asm.Execution
import Imp.Proofs.Config

/-!
The assembly code of a program does what the program does, as long as no value is negative or too
large.
-/

open Relation StateTransition

namespace Imp

open Asm

namespace Asm

-- The integers that are below another as words if and only if they are as values.
def InRange (i : Int) : Prop :=
  0 ≤ i ∧ i < 2147483648

namespace Word

variable {a b : Int}

theorem apply_ofInt (op : Operator) (w : Nat) (a b : Int) :
    apply op (ofInt a : BitVec w) (ofInt b) = ofInt (op.exact a b) := by
  cases op
  case add => exact (BitVec.ofInt_add a b).symm
  case sub =>
    have h : BitVec.ofInt w (a + -b) = .ofInt w a - .ofInt w b := by
      rw [BitVec.ofInt_add, BitVec.ofInt_neg, BitVec.sub_eq_add_neg]
    exact h.symm
  case mul => exact (BitVec.ofInt_mul a b).symm

theorem toNat_ofInt (ha : InRange a) : ((ofInt a : BitVec 64).toNat : Int) = a := by
  have ⟨h₁, h₂⟩ := ha
  simp only [ofInt, BitVec.toNat_ofInt]
  omega

theorem ofInt_inj (ha : InRange a) (hb : InRange b) : (ofInt a : BitVec 64) = ofInt b ↔ a = b := by
  refine ⟨fun h => ?_, fun h => h ▸ rfl⟩
  rw [← toNat_ofInt ha, ← toNat_ofInt hb, h]

theorem below_ofInt (ha : InRange a) (hb : InRange b) :
    below (ofInt a : BitVec 64) (ofInt b) = decide (a < b) := by
  have := toNat_ofInt ha
  have := toNat_ofInt hb
  simp only [below, BitVec.ult]
  grind

end Word

theorem taken_inverse {a b : Int} (ha : InRange a) (hb : InRange b) (r : Relation) :
    (inverse r).taken ((Word.ofInt a : BitVec 64), Word.ofInt b) = !r.exact a b := by
  have hab := Word.below_ofInt ha hb
  have hba := Word.below_ofInt hb ha
  have heq := Word.ofInt_inj ha hb
  refine Bool.eq_iff_iff.mpr ?_
  cases r <;> simp [inverse, Jump.taken, Relation.exact, hab, hba, heq]

end Asm

section Cells

variable {names : List String} {env : Env} {x : String} {v : Int32} {e : Expr}

-- The cells of the names, with what the environment binds and with zero where it binds nothing.
def Asm.cellsOf (names : List String) (env : Env) (x : String) : Option (BitVec 64) :=
  if x ∈ names then some (Word.ofInt ((env.get? x).getD 0).toInt) else none

namespace Asm

theorem cellsOf_get (hx : x ∈ names) (h : env.get? x = some v) :
    cellsOf names env x = some (Word.ofInt v.toInt) := by
  simp [cellsOf, hx, h]

theorem mem_of_cellsOf {w : BitVec 64} (h : cellsOf names env x = some w) : x ∈ names :=
  (Option.ite_none_right_eq_some.mp h).1

theorem cellsOf_ints {i : Int} (hn : ∀ {x v}, env.get? x = some v → x ∈ names)
    (h : env.ints x = some i) : cellsOf names env x = some (Word.ofInt i) := by
  obtain ⟨v, hv, rfl⟩ := Option.map_eq_some_iff.mp h
  exact cellsOf_get (hn hv) hv

theorem cellsOf_set (hx : x ∈ names) (v : Int32) :
    (fun y => if y = x then some (Word.ofInt v.toInt) else cellsOf names env y) =
      cellsOf names (env.set x v) := by
  funext y
  by_cases hy : y = x
  case pos => simp [hy, cellsOf, hx]
  case neg => simp [hy, cellsOf]

end Asm

theorem Expr.word_of_exact {w : Nat} {σ : String → Option Int} {cells : String → Option (BitVec w)}
    (hσ : ∀ {x i}, σ x = some i → cells x = some (Word.ofInt i)) {i : Int}
    (h : e.exact σ = some i) : e.word cells = some (Word.ofInt i) := by
  induction e generalizing i with
  | num w =>
    obtain rfl := Option.some.inj h
    rfl
  | var x => exact hσ h
  | bin op l r ihl ihr =>
    simp only [exact, bind, Option.bind_eq_some_iff] at h
    obtain ⟨a, ha, b, hb, h⟩ := h
    obtain rfl := Option.some.inj h
    simp [word, ihl ha, ihr hb, Word.apply_ofInt]

-- A value in range is the same in words as in the run.
theorem Expr.word_of_eval (hn : ∀ {x v}, env.get? x = some v → x ∈ names)
    (hi : ∀ i, e.exact env.ints = some i → InRange i) (h : e.eval env = .ok v) :
    e.word (cellsOf names env) = some (Word.ofInt v.toInt) ∧ InRange v.toInt := by
  obtain ⟨i, hi', rfl⟩ := exact_of_eval h
  have hr := hi i hi'
  have : (Int32.ofInt i).toInt = i := by
    have ⟨h₁, h₂⟩ := hr
    exact Int32.toInt_ofInt_of_le (by omega) (by omega)
  rw [this]
  exact ⟨word_of_exact (cellsOf_ints hn) hi', hr⟩

end Cells

namespace Asm

section Machine

variable {α : Type} [Word α] [DecidableEq α] {code : Code} {s t : State α} {x : String} {v w : α}

theorem store_reaches {e : Expr} (h : code.At s.pc (e.asm ++ [.instr (.store x .a)]))
    (hv : e.word s.cells = some v) (hx : s.cells x = some w) :
    ∃ t, Reaches₁ (State.step? code) s t ∧
      s.Stored t (e.asm.length + 1) x v := by
  have ⟨s₁, hl, hl'⟩ := Expr.asm_reaches h.left hv
  let s₂ : State α := { s₁.next with cells := fun y => if y = x then some v else s.cells y }
  have h₂ : s₁.step? code = some s₂ := by
    rw [State.step?_of_at (hl'.pc ▸ h.right)]
    simp [State.exec?, State.next, s₂, hl'.value, hl'.cells, hx]
  refine ⟨s₂, .tail' hl h₂, ?_, hl'.stack, rfl⟩
  have : s₂.pc = s₁.pc + 1 := rfl
  rw [this, hl'.pc, Nat.add_assoc]

-- Labels, and jumps that are always taken: only the place in the code changes.
inductive Moves (code : Code) : Nat → Nat → Prop
  | label {pc : Nat} {l : Label} (line : code[pc]? = some (.label l)) : Moves code pc (pc + 1)
  | jump {pc target : Nat} {l : Label} (line : code[pc]? = some (.instr (.jump .always l)))
      (found : code.target? l = some target) : Moves code pc target

theorem Moves.step {pc : Nat} (h : Moves code s.pc pc) :
    s.step? code = some { s with pc := pc } := by
  cases h with
  | label line => simp [State.step?, line, State.next]
  | jump line found => simp [State.step?, line, State.next, State.exec?, Jump.taken, found]

theorem Moves.reaches {pc : Nat} (h : ReflTransGen (Moves code) s.pc pc) :
    Reaches (State.step? code) s { s with pc := pc } := by
  induction h with
  | refl => exact .refl
  | tail _ hm ih => exact .tail ih (Moves.step (s := { s with pc := _ }) hm)

end Machine

-- From a line on, the code does the rest of a program and then halts.
inductive Pending (code : Code) : Program → Nat → Prop
  | halt {pc : Nat} (line : code[pc]? = some (.instr .halt)) : Pending code [] pc
  | stmt {s : Stmt} {p : Program} {n n' pc next : Nat} {c : Code} (asm : s.asm n = .ok (c, n'))
      (here : code.At pc c) (moves : ReflTransGen (Moves code) (pc + c.length) next)
      (rest : Pending code p next) : Pending code (s :: p) pc

theorem Pending.block {p k : Program} {n n' pc next : Nat} {code c : Code}
    (asm : p.asm n = .ok (c, n')) (here : code.At pc c)
    (moves : ReflTransGen (Moves code) (pc + c.length) next) (rest : Pending code k next) :
    ∃ pc', ReflTransGen (Moves code) pc pc' ∧ Pending code (p ++ k) pc' := by
  induction p generalizing n c pc with
  | nil =>
    cases asm
    exact ⟨next, moves, rest⟩
  | cons s p ih =>
    obtain ⟨cs, m, cp, hs, hp, rfl⟩ := Program.asm_cons_eq_ok asm
    rw [List.length_append, ← Nat.add_assoc] at moves
    have ⟨pc', hm, hk⟩ := ih hp here.right moves
    exact ⟨pc, .refl, .stmt hs here.left hm hk⟩

end Asm

section Statements

variable {names : List String} {env : Env} {code c : Code} {t t' : State (BitVec 64)} {p : Program}
  {n n' next : Nat}

-- A state that has the rest of a program before it, and is reached after at least one step.
structure Asm.State.Goes (t : State (BitVec 64)) (code : Code) (names : List String) (env : Env)
    (p : Program) (t' : State (BitVec 64)) : Prop where
  reaches : Reaches₁ (State.step? code) t t'
  stack : t'.stack = t.stack
  cells : t'.cells = cellsOf names env
  pending : Pending code p t'.pc

theorem Asm.State.Stored.goes {x : String} {v : Int32} {length : Nat}
    (h : t.Stored t' length x (Word.ofInt v.toInt)) (hr : Reaches₁ (State.step? code) t t')
    (hc : t.cells = cellsOf names env) (hx : x ∈ names)
    (hm : ReflTransGen (Moves code) (t.pc + length) next) (hp : Pending code p next) :
    ∃ t', t.Goes code names (env.set x v) p t' := by
  refine ⟨{ t' with pc := next }, .trans_left hr (Moves.reaches (h.pc ▸ hm)), h.stack, ?_, hp⟩
  rw [h.cells, hc]
  exact cellsOf_set hx v

-- Where the parts of a loop lie.
structure Asm.Code.LoopAt (code : Code) (pc n : Nat) (test : Cond) (cb : Code) : Prop where
  again : code[pc]? = some (.label (.loopStart (n + 1)))
  guard : code.At (pc + 1) (test.asmExit (.loopEnd (n + 2)))
  body : code.At (pc + 1 + (test.asmExit (.loopEnd (n + 2))).length) cb
  back : code[pc + 1 + (test.asmExit (.loopEnd (n + 2))).length + cb.length]? =
    some (.instr (.jump .always (.loopStart (n + 1))))
  exit : code[pc + 1 + (test.asmExit (.loopEnd (n + 2))).length + cb.length + 1]? =
    some (.label (.loopEnd (n + 2)))

theorem Asm.Code.At.loop {test : Cond} {pc : Nat} {cb : Code}
    (h : code.At pc (.label (.loopStart (n + 1)) :: test.asmExit (.loopEnd (n + 2)) ++ cb ++
      [.instr (.jump .always (.loopStart (n + 1))), .label (.loopEnd (n + 2))])) :
    code.LoopAt pc n test cb := by
  have h : code.At pc (.label (.loopStart (n + 1)) :: (test.asmExit (.loopEnd (n + 2)) ++ (cb ++
      [.instr (.jump .always (.loopStart (n + 1))), .label (.loopEnd (n + 2))]))) := by
    simpa using h
  exact ⟨h.head, h.tail.left, h.tail.right.left, h.tail.right.right.head,
    h.tail.right.right.tail.head⟩

theorem Asm.loop_goes {test : Cond} {b : Program} {r : Bool} (hn : code.numbers.Nodup)
    (hs : (Stmt.loop test b).asm n = .ok (c, n')) (h : code.At t.pc c)
    (hm : ReflTransGen (Moves code) (t.pc + c.length) next) (hp : Pending code p next)
    (hc : t.cells = cellsOf names env) (simple : test.right.Simple)
    (hx : ∀ {x v}, env.get? x = some v → x ∈ names)
    (hv : ∀ e ∈ [test.left, test.right], ∀ i, e.exact env.ints = some i → InRange i)
    (hr : test.eval env = .ok r) :
    ∃ t', t.Goes code names env ((if r then b ++ [.loop test b] else []) ++ p) t' := by
  have again := Pending.stmt hs h hm hp
  simp only [Stmt.asm, bind_eq_ok, pure_eq_ok, Prod.mk.injEq] at hs
  obtain ⟨⟨cb, m⟩, hb, rfl, rfl⟩ := hs
  have hloop := h.loop
  simp only [Cond.eval, bind_eq_ok, pure_eq_ok] at hr
  obtain ⟨a, ha, b', hb', rfl⟩ := hr
  obtain ⟨ha, har⟩ := Expr.word_of_eval hx (hv _ (by simp)) ha
  obtain ⟨hb', hbr⟩ := Expr.word_of_eval hx (hv _ (by simp)) hb'
  -- the test, from behind the label of the loop
  have h₁ : t.step? code = some t.next := by simp [State.step?, hloop.again]
  obtain ⟨t₂, h₂, hstack, hcells, hpc⟩ := Cond.asmExit_reaches (s := t.next) simple hloop.guard
    (hc ▸ ha) (hc ▸ hb') (Code.target?_eq hn hloop.exit)
  rw [taken_inverse har hbr, ← Relation.holds_eq_exact] at hpc
  have hreach : Reaches₁ (State.step? code) t t₂ := .head' h₁ h₂
  generalize test.rel.holds a b' = r at hpc ⊢
  cases r
  case false =>
    -- out of the loop, over the label at its end
    have hpc : t₂.pc = t.pc + 1 + (test.asmExit (.loopEnd (n + 2))).length + cb.length + 1 := hpc
    simp only [List.length_append, List.length_cons, List.length_nil] at hm
    have hm : ReflTransGen (Moves code) (t₂.pc + 1) next := by
      convert hm using 1
      omega
    have hm := hm.head (.label (hpc ▸ hloop.exit))
    exact ⟨_, .trans_left hreach (Moves.reaches hm), hstack, hcells.trans hc, hp⟩
  case true =>
    -- the body, with the jump back behind it
    have hpc : t₂.pc = t.pc + 1 + (test.asmExit (.loopEnd (n + 2))).length := hpc
    have hback : Moves code (t₂.pc + cb.length) t.pc :=
      .jump (hpc ▸ hloop.back) (Code.target?_eq hn hloop.again)
    obtain ⟨pc, hm, hp⟩ := Pending.block hb (hpc ▸ hloop.body) (.single hback) again
    rw [if_pos rfl, List.append_assoc]
    exact ⟨_, .trans_left hreach (Moves.reaches hm), hstack, hcells.trans hc, hp⟩

theorem Asm.store_goes {x : String} {e : Expr} {v : Int32}
    (h : code.At t.pc (e.asm ++ [.instr (.store x .a)]))
    (hm : ReflTransGen (Moves code) (t.pc + (e.asm ++ [Line.instr (.store x .a)]).length) next)
    (hp : Pending code p next) (hc : t.cells = cellsOf names env) (hxn : x ∈ names)
    (hx : ∀ {x v}, env.get? x = some v → x ∈ names)
    (hv : ∀ i, e.exact env.ints = some i → InRange i) (he : e.eval env = .ok v) :
    ∃ t', t.Goes code names (env.set x v) p t' := by
  have ⟨hword, _⟩ := Expr.word_of_eval hx hv he
  have ⟨w, hw⟩ : ∃ w, t.cells x = some w := by simp [hc, cellsOf, hxn]
  have ⟨t₁, hreach, hs⟩ := store_reaches h (hc ▸ hword) hw
  rw [List.length_append, List.length_singleton] at hm
  exact hs.goes hreach hc hxn hm hp

theorem Asm.decrement_goes {x : String} {before v : Int32} {number : Nat}
    (h : code.At t.pc (decrement x number))
    (hm : ReflTransGen (Moves code) (t.pc + (decrement x number).length) next)
    (hp : Pending code p next) (hc : t.cells = cellsOf names env)
    (hx : ∀ {x v}, env.get? x = some v → x ∈ names)
    (hv : ∀ i, (Expr.bin .sub (.var x) (.num 1)).exact env.ints = some i → InRange i)
    (hb : env.get? x = some before) (he : (Expr.bin .sub (.var x) (.num 1)).eval env = .ok v) :
    ∃ t', t.Goes code names (env.set x v) p t' := by
  have hcell := cellsOf_get (hx hb) hb
  have hr := hv (before.toInt - 1) (by simp [Expr.exact, Env.ints, hb, Operator.exact])
  obtain ⟨hword, _⟩ := Expr.word_of_eval hx hv he
  -- the exact value is not negative, so that the cell is not zero
  have hne : (Word.ofInt before.toInt : BitVec 64) ≠ Word.ofInt 0 := by
    have := before.toInt_lt
    obtain ⟨h₁, _⟩ := hr
    have hlt : InRange before.toInt := ⟨by omega, by omega⟩
    rw [Ne, Word.ofInt_inj hlt ⟨by omega, by omega⟩]
    omega
  obtain ⟨t₁, hreach, hs⟩ := decrement_reaches h (hc ▸ hcell) hne
  have hval : Word.apply .sub (Word.ofInt before.toInt : BitVec 64) (Word.ofInt 1) =
      Word.ofInt v.toInt := by
    simpa [Expr.word, hcell] using hword
  exact (hval ▸ hs).goes hreach hc (hx hb) hm hp

theorem Stmt.asm_goes {s : Stmt} {a : Action} (hn : code.numbers.Nodup)
    (hs : s.asm n = .ok (c, n')) (h : code.At t.pc c)
    (hm : ReflTransGen (Moves code) (t.pc + c.length) next) (hp : Pending code p next)
    (hc : t.cells = cellsOf names env) (simple : ∀ test b, s = .loop test b → test.right.Simple)
    (hd : s.introduced .declarationsAndAssignments ⊆ names)
    (hx : ∀ {x v}, env.get? x = some v → x ∈ names)
    (hv : ∀ e ∈ s.exprs, ∀ i, e.exact env.ints = some i → InRange i) (ha : s.act env = .ok a) :
    ∃ t', t.Goes code names a.env (a.block ++ p) t' := by
  cases Stmt.acts_of_act ha with
  | @declare x e v he =>
    cases hs
    exact store_goes h hm hp hc (hd (by simp [introduced])) hx (hv e (by simp [exprs])) he
  | @assign x e before v hb he =>
    simp only [asm] at hs
    split at hs
    case isTrue hdec =>
      subst hdec
      cases hs
      exact decrement_goes h hm hp hc hx (hv _ (by simp [exprs])) hb he
    case isFalse =>
      cases hs
      exact store_goes h hm hp hc (hx hb) hx (hv e (by simp [exprs])) he
  | @loop test b r hr => exact loop_goes hn hs h hm hp hc (simple test b rfl) hx hv hr
  | branch => simp [asm] at hs

end Statements

namespace Program

variable {p : Program}

-- What a configuration of a run is to a state of the machine that runs the program's code.
structure Executes (p : Program) (code : Code) (c : Config) (t : State (BitVec 64)) : Prop where
  inside : c.Scoped .declarationsAndAssignments (p.names .declarationsAndAssignments)
  parts : c.todo.parts ⊆ p.parts
  stack : t.stack = []
  cells : t.cells = cellsOf (p.names .declarationsAndAssignments) c.env
  pending : Pending code c.todo t.pc

theorem Executes.next {code : Code} {c c' : Config} {t : State (BitVec 64)}
    (h : p.Executes code c t) (hn : code.numbers.Nodup)
    (simple : ∀ test b, .loop test b ∈ p.parts → test.right.Simple)
    (hv : ∀ i ∈ c.values, InRange i) (hc : c.next? = some c') :
    ∃ t', p.Executes code c' t' ∧ Reaches₁ (State.step? code) t t' := by
  obtain ⟨s, todo, a, hs, ha, rfl⟩ := Config.exists_act_of_next? hc
  have hparts := h.parts
  have hd := h.inside.todo
  have hp := h.pending
  rw [hs] at hparts hd hp hv
  cases hp with
  | stmt asm here moves rest =>
    have ⟨t', ht⟩ := Stmt.asm_goes hn asm here moves rest h.cells
      (fun test b hb => simple test b (hparts (by simp [Program.parts, hb, Stmt.parts])))
      (List.append_subset.mp hd).1 h.inside.env
      (fun e he i hi => hv i (Config.mem_values he hi)) ha
    exact ⟨t', ⟨h.inside.next hc, List.Subset.trans (Config.parts_subset_of_next? hc) h.parts,
      ht.stack.trans h.stack, ht.cells, ht.pending⟩, ht.reaches⟩

theorem executes_start {c : Code} {n : Nat} (h : p.asm 0 = .ok (c, n)) :
    ∃ t, p.Executes (.whole (p.names .declarationsAndAssignments) c) ⟨.empty, p⟩ t ∧
      Reaches (State.step? (.whole (p.names .declarationsAndAssignments) c))
        (State.start (.whole (p.names .declarationsAndAssignments) c)) t := by
  set names := p.names .declarationsAndAssignments
  have hat := Code.whole_at names c
  have ⟨pc, hm, hp⟩ := Pending.block h hat.tail.left .refl (.halt hat.tail.right.head)
  have hm : ReflTransGen (Moves (.whole names c)) 0 pc :=
    .head (.jump rfl (Code.target?_eq (nodup_numbers_whole h names) hat.head))
      (.head (.label hat.head) hm)
  refine ⟨_, ⟨p.start_scoped _, List.Subset.refl _, rfl, ?_, p.append_nil ▸ hp⟩, Moves.reaches hm⟩
  funext x
  simp [State.start, cellsOf, cell_mem_whole h, names]

theorem Executes.halted {code : Code} {env : Env} {t : State (BitVec 64)}
    (h : p.Executes code ⟨env, []⟩ t) : t.Halted code := by
  cases h.pending with
  | halt line => exact line

theorem code_halts {limit : Nat} {env : Env} {c : Code} {n : Nat} (hc : p.asm 0 = .ok (c, n))
    (simple : ∀ test b, .loop test b ∈ p.parts → test.right.Simple)
    (hr : (p.run limit).outcome = .finished env)
    (hv : ∀ c ∈ p.path limit, ∀ i ∈ c.values, InRange i) :
    ∃ t, p.Executes (.whole (p.names .declarationsAndAssignments) c) ⟨env, []⟩ t ∧
      Reaches (State.step? (.whole (p.names .declarationsAndAssignments) c))
        (State.start (.whole (p.names .declarationsAndAssignments) c)) t := by
  have ⟨t₁, h₁, hreach₁⟩ := executes_start hc
  have hn := nodup_numbers_whole hc (p.names .declarationsAndAssignments)
  have ⟨t₂, h₂, hreach₂⟩ :=
    simulation hr (fun hpath hnext h => h.next hn simple (hv _ hpath) hnext) h₁
  exact ⟨t₂, h₂, hreach₁.trans hreach₂⟩

-- On the machine, the assembly of a program whose run comes to its end without ever leaving the
-- range halts, and leaves in each cell what the run leaves in the variable of that name. The names
-- must be such that they do not take the lines apart that they stand in.
theorem asm_halts {limit : Nat} {env : Env} (hp : p.Unconditional)
    (unbroken : ∀ x ∈ p.mentions, Unbroken x)
    (simple : ∀ test b, .loop test b ∈ p.parts → test.right.Simple)
    (hr : (p.run limit).outcome = .finished env)
    (hv : ∀ c ∈ p.path limit, ∀ i ∈ c.values, InRange i) :
    ∃ text script t, p.asmText = .ok text ∧ Script.read? text = some script ∧
      Reaches (Script.State.step? script) (Script.State.start script : Script.State (BitVec 64)) t ∧
      t.Halted script ∧ t.stack = [] ∧
      (∀ x v, env.get? x = some v → t.memory (cellName x) = some (BitVec.ofInt 64 v.toInt)) ∧
      (∀ x ∈ p.names .declarationsAndAssignments, env.get? x = none →
        t.memory (cellName x) = some 0) ∧
      ∀ w v, t.memory w = some v → ∃ x ∈ p.names .declarationsAndAssignments, w = cellName x := by
  have ⟨(c, n), hc⟩ := exists_asm hp 0
  have ⟨t, ht, hreach⟩ := code_halts hc simple hr hv
  have hcells : ∀ x, t.written.memory (cellName x) =
      cellsOf (p.names .declarationsAndAssignments) env x := fun x => by
    rw [State.written_memory, ht.cells]
  refine ⟨_, _, t.written, asmText_eq hc, read?_whole hc unbroken,
    reaches_script hc nodup_names hreach, ht.halted.written, ht.stack, fun x v hx => ?_,
    fun x hx hnone => ?_, fun w v hw => ?_⟩
  case refine_1 =>
    rw [hcells]
    exact cellsOf_get (ht.inside.env hx) hx
  case refine_2 =>
    rw [hcells]
    simp [cellsOf, hx, hnone, Word.ofInt]
  case refine_3 =>
    obtain ⟨x, rfl, hx⟩ := State.exists_of_written_memory hw
    rw [ht.cells] at hx
    exact ⟨x, mem_of_cellsOf hx, rfl⟩

-- The factorial of three, counting down.
def countdown : Program :=
  [.declare "n" (.num 3), .declare "acc" (.num 1),
    .loop ⟨.gt, .var "n", .num 0⟩
      [.assign "acc" (.bin .mul (.var "acc") (.var "n")),
        .assign "n" (.bin .sub (.var "n") (.num 1))]]

theorem countdown_halts :
    ∃ text script t, countdown.asmText = .ok text ∧ Script.read? text = some script ∧
      Reaches (Script.State.step? script) (Script.State.start script : Script.State (BitVec 64)) t ∧
      t.Halted script ∧ t.stack = [] ∧ t.memory "var_n" = some 0 ∧ t.memory "var_acc" = some 6 := by
  have hp : countdown.Unconditional := by
    simp [Unconditional, countdown, parts, Stmt.parts]
  have unbroken : ∀ x ∈ countdown.mentions, Unbroken x := by decide
  have simple : ∀ test b, .loop test b ∈ countdown.parts → test.right.Simple := by
    simp [countdown, parts, Stmt.parts, Expr.Simple]
  have hr : (countdown.run 12).outcome = .finished ((Env.empty.set "n" 0).set "acc" 6) := by decide
  have hv : ∀ c ∈ countdown.path 12, ∀ i ∈ c.values, 0 ≤ i ∧ i < 2147483648 := by decide
  obtain ⟨text, script, t, htext, hread, hreach, hhalt, hstack, hcells, -⟩ :=
    asm_halts hp unbroken simple hr hv
  exact ⟨text, script, t, htext, hread, hreach, hhalt, hstack, hcells "n" 0 rfl, hcells "acc" 6 rfl⟩

-- A program with a comma in a name. In its text the comma splits what is meant for a cell.
def comma : Program :=
  [.declare "a,b" (.num 1)]

def commaText : String :=
  "JMP start\nvar_a,b: DB 0\n\nstart:\nMOV A, 1\nMOV [var_a,b], A\nHLT\n"

theorem comma_not_stored :
    comma.Unconditional ∧ (∀ test b, .loop test b ∈ comma.parts → test.right.Simple) ∧
      (comma.run 1).outcome = .finished (Env.empty.set "a,b" 1) ∧
      (∀ c ∈ comma.path 1, ∀ i ∈ c.values, 0 ≤ i ∧ i < 2147483648) ∧
      ∃ text script, comma.asmText = .ok text ∧ Script.read? text = some script ∧
        ∀ t, Reaches (Script.State.step? script) (Script.State.start script) t →
          t.Halted script → t.memory "var_a,b" = some (0 : BitVec 64) := by
  have hp : comma.Unconditional := by simp [Unconditional, comma, parts, Stmt.parts]
  have simple : ∀ test b, .loop test b ∈ comma.parts → test.right.Simple := by
    simp [comma, parts, Stmt.parts]
  have hrun : (Script.read? commaText).any fun script =>
      ((Option.bind · (Script.State.step? script))^[4] (some (.start script))).any fun u =>
        script.orders[u.pc]? = some (.run .hlt []) ∧ u.memory "var_a,b" = some (0 : BitVec 64) := by
    decide +kernel
  obtain ⟨script, hread, u, hu, hhalt⟩ := Script.exists_reaches_of_read? 4 hrun
  obtain ⟨hhalt, hmemory⟩ := of_decide_eq_true hhalt
  refine ⟨hp, simple, by decide, by decide, commaText, script, by decide +kernel, hread,
    fun t ht hthalt => ?_⟩
  exact hthalt.unique ⟨[], hhalt⟩ ht hu ▸ hmemory

end Program

end Imp
