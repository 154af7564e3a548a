import Imp.Proofs.Asm.Layout

/-!
What the code of an expression leaves behind: its value in the accumulator, the stack and the cells
as they were, and in `B` what it last took back from the stack. What an exit test decides: it leaves
the left operand in `B` while the code of the right one runs, so that it finds it there only behind
an operand that is loaded at once.
-/

open Relation StateTransition

namespace Imp

open Asm

-- The value of an expression in the words of a machine.
def Expr.word {α : Type} [Word α] (cells : String → Option α) : Expr → Option α
  | num v => some (Word.ofInt v.toInt)
  | var x => cells x
  | bin op l r => do return Word.apply op (← l.word cells) (← r.word cells)

-- The right operands that are loaded at once, so that no register but the accumulator is written.
def Expr.Simple : Expr → Prop
  | num _ | var _ => True
  | bin .. => False

-- The left operand of the outermost operator.
def Expr.leftOperand? : Expr → Option Expr
  | num _ | var _ => none
  | bin _ l _ => some l

theorem Expr.Simple.leftOperand?_eq {e : Expr} (h : e.Simple) : e.leftOperand? = none := by
  cases e with
  | num | var => rfl
  | bin => exact h.elim

-- What an exit test compares with its right operand.
def Cond.compared (test : Cond) : Expr :=
  test.right.leftOperand?.getD test.left

variable {α : Type} [Word α] [DecidableEq α] {code c d : Code} {s t : State α}

namespace Asm

-- The lines of `c` are those from line `pc` on, and are among so many lines.
structure Code.Within (code : Code) (first length pc : Nat) (c : Code) : Prop where
  here : code.At pc c
  le : first ≤ pc
  le_end : pc + c.length ≤ first + length

namespace Code.Within

variable {first length pc : Nat} {l : Line}

theorem left (h : code.Within first length pc (c ++ d)) : code.Within first length pc c where
  here := h.here.left
  le := h.le
  le_end := by
    have := h.le_end
    rw [List.length_append] at this
    omega

theorem right (h : code.Within first length pc (c ++ d)) :
    code.Within first length (pc + c.length) d where
  here := h.here.right
  le := by have := h.le; omega
  le_end := by
    have := h.le_end
    rw [List.length_append] at this
    omega

theorem tail (h : code.Within first length pc (l :: c)) : code.Within first length (pc + 1) c :=
  right (c := [l]) h

end Code.Within

theorem Code.At.within {pc : Nat} (h : code.At pc c) : code.Within pc c.length pc c :=
  ⟨h, Nat.le_refl pc, Nat.le_refl _⟩

theorem State.step?_of_at {i : Instr} (h : code.At s.pc (.instr i :: c)) :
    s.step? code = s.next.exec? code i := by
  simp [step?, h.head]

theorem State.stepWithin?_of_within {i : Instr} {first length : Nat}
    (h : code.Within first length s.pc (.instr i :: c)) :
    s.stepWithin? code first length = s.next.exec? code i := by
  have hlo := h.le
  have hhi := h.le_end
  rw [List.length_cons] at hhi
  exact (if_pos (by omega)).trans (step?_of_at h.here)

-- Code of a length has been run up to its end, with a value as its result.
structure State.Computed (s t : State α) (length : Nat) (v : α) : Prop where
  pc : t.pc = s.pc + length
  value : t.registers .a = v
  stack : t.stack = s.stack
  cells : t.cells = s.cells

omit [Word α] [DecidableEq α] in
theorem State.Computed.trans {u : State α} {n m : Nat} {a b : α} (hs : s.Computed t n a)
    (ht : t.Computed u m b) : s.Computed u (n + m) b where
  pc := by rw [ht.pc, hs.pc, Nat.add_assoc]
  value := ht.value
  stack := ht.stack.trans hs.stack
  cells := ht.cells.trans hs.cells

section Passes

variable {first length : Nat}

theorem State.push_passes {r : Register}
    (h : code.Within first length s.pc (.instr (.push r) :: c)) :
    s.stepWithin? code first length = some { s.next with stack := s.registers r :: s.stack } :=
  stepWithin?_of_within h

theorem State.pop_passes {r : Register} {v : α} {stack : List α}
    (h : code.Within first length s.pc (.instr (.pop r) :: c)) (hs : s.stack = v :: stack) :
    s.stepWithin? code first length = some ({ s.next with stack := stack }.put r v) := by
  rw [stepWithin?_of_within h]
  simp [exec?, next, hs]

-- Code of two values. The first one is put aside on the stack while the second one is computed, and
-- is then taken back into `B`.
def operands (c d : Code) : Code :=
  c ++ .instr (.push .a) :: d ++ [.instr (.pop .b)]

theorem operands_pass {a b : α} (h : code.Within first length s.pc (operands c d))
    (hleft : ∃ t, Reaches (State.stepWithin? code first length) s t ∧ s.Computed t c.length a)
    (hright : ∀ t, code.Within first length t.pc d → t.cells = s.cells →
      ∃ u, Reaches (State.stepWithin? code first length) t u ∧ t.Computed u d.length b) :
    ∃ t, Reaches (State.stepWithin? code first length) s t ∧
      s.Computed t (operands c d).length b ∧ t.registers .b = a := by
  obtain ⟨s₁, hreach, hc⟩ := hleft
  rw [operands] at h ⊢
  have hrest := hc.pc ▸ h.left.right
  let s₂ : State α := { s₁.next with stack := a :: s.stack }
  have hpush : s₁.stepWithin? code first length = some s₂ := by
    rw [State.push_passes hrest, hc.value, hc.stack]
  obtain ⟨s₃, hreach', hd⟩ := hright s₂ hrest.tail hc.cells
  have hpc : s₃.pc = s.pc + (c ++ .instr (.push .a) :: d).length := by
    rw [hd.pc, show s₂.pc = s₁.pc + 1 from rfl, hc.pc, List.length_append, List.length_cons]
    omega
  have hpop := State.pop_passes (hpc ▸ h.right) hd.stack
  refine ⟨_, (hreach.tail hpush).trans hreach' |>.tail hpop, ⟨?_, hd.value, rfl, ?_⟩, rfl⟩
  case refine_1 =>
    rw [List.length_append, ← Nat.add_assoc, ← hpc]
    rfl
  case refine_2 => exact hd.cells.trans hc.cells

-- A comparison of `B` with the accumulator, and a jump that depends on it.
theorem comparison_passes {j : Jump} {exit : Label} {target : Nat}
    (h : code.Within first length s.pc
      (.instr (.cmp .b (.register .a)) :: .instr (.jump j exit) :: c))
    (ht : code.target? exit = some target) :
    ∃ t, Reaches (State.stepWithin? code first length) s t ∧ t.stack = s.stack ∧
      t.cells = s.cells ∧
      t.pc = if j.taken (s.registers .b, s.registers .a) then target else s.pc + 2 := by
  let s₁ : State α := { s.next with flags := (s.registers .b, s.registers .a) }
  have h₁ : s.stepWithin? code first length = some s₁ :=
    (State.stepWithin?_of_within h).trans rfl
  let s₂ : State α :=
    { s₁.next with pc := if j.taken (s.registers .b, s.registers .a) then target else s.pc + 2 }
  have h₂ : s₁.stepWithin? code first length = some s₂ := by
    rw [State.stepWithin?_of_within h.tail]
    simp only [State.exec?, State.next, ht, s₂, s₁]
    split <;> rfl
  exact ⟨s₂, .head h₁ (.single h₂), rfl, rfl, rfl⟩

theorem arith_passes {op : Operator} (h : code.Within first length s.pc (arith op)) :
    ∃ t, Reaches (State.stepWithin? code first length) s t ∧
      s.Computed t (arith op).length (Word.apply op (s.registers .b) (s.registers .a)) ∧
      t.registers .b = s.registers .b := by
  cases op with
  | add =>
    have h₁ := State.stepWithin?_of_within h
    exact ⟨_, .single h₁, ⟨rfl, Word.add_comm .., rfl, rfl⟩, rfl⟩
  | sub =>
    let s₁ := s.next.put .c (s.registers .b)
    let s₂ := s₁.next.put .c (Word.apply .sub (s.registers .b) (s.registers .a))
    let s₃ := s₂.next.put .a (Word.apply .sub (s.registers .b) (s.registers .a))
    have h₁ : s.stepWithin? code first length = some s₁ :=
      (State.stepWithin?_of_within h).trans rfl
    have h₂ : s₁.stepWithin? code first length = some s₂ :=
      (State.stepWithin?_of_within h.tail).trans rfl
    have h₃ : s₂.stepWithin? code first length = some s₃ :=
      (State.stepWithin?_of_within h.tail.tail).trans rfl
    exact ⟨s₃, .head h₁ (.head h₂ (.single h₃)), ⟨rfl, rfl, rfl, rfl⟩, rfl⟩
  | mul =>
    let s₁ := s.next.put .c (s.registers .a)
    let s₂ := s₁.next.put .a (s.registers .b)
    let s₃ := s₂.next.put .a (Word.apply .mul (s.registers .b) (s.registers .a))
    have h₁ : s.stepWithin? code first length = some s₁ :=
      (State.stepWithin?_of_within h).trans rfl
    have h₂ : s₁.stepWithin? code first length = some s₂ :=
      (State.stepWithin?_of_within h.tail).trans rfl
    have h₃ : s₂.stepWithin? code first length = some s₃ :=
      (State.stepWithin?_of_within h.tail.tail).trans rfl
    exact ⟨s₃, .head h₁ (.head h₂ (.single h₃)), ⟨rfl, rfl, rfl, rfl⟩, rfl⟩

end Passes

end Asm

-- What is in `B` behind the code of an expression, given what was there before.
def Expr.parked (cells : String → Option α) (before : α) (e : Expr) : Option α :=
  e.leftOperand?.elim (some before) (word cells)

theorem Expr.asm_passes {first length : Nat} {e : Expr} {v : α}
    (h : code.Within first length s.pc e.asm) (hv : e.word s.cells = some v) :
    ∃ t, Reaches (State.stepWithin? code first length) s t ∧ s.Computed t e.asm.length v ∧
      e.parked s.cells (s.registers .b) = some (t.registers .b) := by
  induction e generalizing s v with
  | num w =>
    obtain rfl := Option.some.inj hv
    have h₁ := State.stepWithin?_of_within h
    exact ⟨_, .single h₁, ⟨rfl, rfl, rfl, rfl⟩, rfl⟩
  | var x =>
    have h₁ : s.stepWithin? code first length = some (s.next.put .a v) := by
      rw [State.stepWithin?_of_within h]
      simp only [State.exec?, State.read?, State.next, word] at hv ⊢
      simp [hv]
    exact ⟨_, .single h₁, ⟨rfl, rfl, rfl, rfl⟩, rfl⟩
  | bin op l r ihl ihr =>
    simp only [word, bind, Option.bind_eq_some_iff] at hv
    obtain ⟨a, ha, b, hb, hv⟩ := hv
    obtain rfl := Option.some.inj hv
    have hasm : (bin op l r).asm = operands l.asm r.asm ++ arith op := by simp [asm, operands]
    rw [hasm] at h ⊢
    have hl : ∃ t, Reaches (State.stepWithin? code first length) s t ∧
        s.Computed t l.asm.length a :=
      (ihl h.left.left.left ha).imp fun _ ht => ⟨ht.1, ht.2.1⟩
    have hr : ∀ t, code.Within first length t.pc r.asm → t.cells = s.cells →
        ∃ u, Reaches (State.stepWithin? code first length) t u ∧ t.Computed u r.asm.length b :=
      fun _ h hcells => (ihr h (hcells ▸ hb)).imp fun _ hu => ⟨hu.1, hu.2.1⟩
    obtain ⟨s₁, hreach, ho, hleft⟩ := operands_pass h.left hl hr
    obtain ⟨s₂, hreach', ht, hkept⟩ := arith_passes (ho.pc ▸ h.right)
    rw [hleft, ho.value] at ht
    rw [List.length_append]
    refine ⟨s₂, hreach.trans hreach', ho.trans ht, ?_⟩
    rw [hkept, hleft]
    exact ha

theorem Expr.asm_reaches {e : Expr} {v : α} (h : code.At s.pc e.asm)
    (hv : e.word s.cells = some v) :
    ∃ t, Reaches (State.step? code) s t ∧ s.Computed t e.asm.length v := by
  have ⟨t, hreach, ht, _⟩ := asm_passes h.within hv
  exact ⟨t, State.reaches_of_within hreach, ht⟩

omit [DecidableEq α] in
theorem Cond.word_compared {test : Cond} {cells : String → Option α} {l : α}
    (h : test.left.word cells = some l) :
    test.compared.word cells = test.right.parked cells l := by
  unfold compared Expr.parked
  cases test.right.leftOperand? with
  | none => exact h
  | some e => rfl

-- The test ends behind itself or at its target, and never anywhere else.
theorem Cond.asmExit_passes {test : Cond} {exit : Label} {l a b : α} {target : Nat}
    (h : code.At s.pc (test.asmExit exit)) (hl : test.left.word s.cells = some l)
    (ha : test.compared.word s.cells = some a) (hb : test.right.word s.cells = some b)
    (ht : code.target? exit = some target) :
    ∃ t, Reaches (State.stepWithin? code s.pc (test.asmExit exit).length) s t ∧
      t.stack = s.stack ∧ t.cells = s.cells ∧
      t.pc = if (inverse test.rel).taken (a, b) then target
        else s.pc + (test.asmExit exit).length := by
  have h := h.within
  generalize hlength : (test.asmExit exit).length = length at h ⊢
  simp only [asmExit, List.append_assoc, List.cons_append] at h
  -- the left operand, which is left in `B`
  obtain ⟨s₁, hleft, hleft', _⟩ := Expr.asm_passes h.left hl
  have h := hleft'.pc ▸ h.right
  let s₂ := s₁.next.put .b l
  have h₂ : s₁.stepWithin? code s.pc length = some s₂ := by
    rw [State.stepWithin?_of_within h]
    simp [State.exec?, State.read?, s₂, State.next, hleft'.value]
  -- the right operand, whose code may put another value there
  obtain ⟨s₃, hright, hright', hparked⟩ := Expr.asm_passes (s := s₂) h.tail.left (hleft'.cells ▸ hb)
  have hcells : s₂.cells = s.cells := hleft'.cells
  rw [hcells, show s₂.registers .b = l from rfl, ← word_compared hl, ha] at hparked
  have hcompared : s₃.registers .b = a := (Option.some.inj hparked).symm
  have hrest := h.tail.right
  rw [show s₁.pc + 1 = s₂.pc from rfl, ← hright'.pc] at hrest
  obtain ⟨t, hreach, hstack, hcells', hpc⟩ := comparison_passes hrest ht
  rw [hcompared, hright'.value] at hpc
  refine ⟨t, (hleft.tail h₂).trans hright |>.trans hreach, ?_, ?_, ?_⟩
  case refine_1 => exact hstack.trans (hright'.stack.trans hleft'.stack)
  case refine_2 => exact hcells'.trans (hright'.cells.trans hcells)
  case refine_3 =>
    have hend : s₃.pc + 2 = s.pc + length := by
      have := hleft'.pc
      have := hright'.pc
      have : s₂.pc = s₁.pc + 1 := rfl
      simp only [asmExit, List.length_append, List.length_cons, List.length_nil] at hlength
      omega
    rw [hpc, hend]

theorem Cond.asmExit_reaches {test : Cond} {exit : Label} {a b : α} {target : Nat}
    (hr : test.right.Simple) (h : code.At s.pc (test.asmExit exit))
    (ha : test.left.word s.cells = some a) (hb : test.right.word s.cells = some b)
    (ht : code.target? exit = some target) :
    ∃ t, Reaches (State.step? code) s t ∧ t.stack = s.stack ∧ t.cells = s.cells ∧
      t.pc = if (inverse test.rel).taken (a, b) then target
        else s.pc + (test.asmExit exit).length := by
  have hcompared : test.compared.word s.cells = some a := by
    rwa [compared, hr.leftOperand?_eq]
  have ⟨t, hreach, ht⟩ := asmExit_passes h ha hcompared hb ht
  exact ⟨t, State.reaches_of_within hreach, ht⟩

end Imp
