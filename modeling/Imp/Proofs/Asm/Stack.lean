import Imp.Proofs.Asm.Steps

/-!
The height of the stack at each line of assembly code.

Stores, jumps, labels and the end of the program stand where the stack is empty. So the height at a
line is the same by whatever way the machine comes to it.
-/

open Relation StateTransition

namespace Imp

namespace Asm

-- The height of the stack behind a line, by that before it.
def Line.height? : Nat → Line → Option Nat
  | n, instr (.push _) => some (n + 1)
  | n + 1, instr (.pop _) => some n
  | 0, instr (.pop _) => none
  | n, instr (.store ..) | n, instr (.jump ..) | n, instr .halt | n, label _ =>
    if n = 0 then some 0 else none
  | n, _ => some n

namespace Line

variable {n n' : Nat} {l : Label} {j : Jump} {r : Register} {x : String}

@[simp]
theorem height?_label : height? n (label l) = some n' ↔ n = 0 ∧ n' = 0 := by
  simp [height?, eq_comm]

@[simp]
theorem height?_jump : height? n (instr (.jump j l)) = some n' ↔ n = 0 ∧ n' = 0 := by
  simp [height?, eq_comm]

@[simp]
theorem height?_store : height? n (instr (.store x r)) = some n' ↔ n = 0 ∧ n' = 0 := by
  simp [height?, eq_comm]

@[simp]
theorem height?_pop : height? n (instr (.pop r)) = some n' ↔ n = n' + 1 := by
  cases n <;> simp [height?]

theorem eq_of_height? {l : Line} (hl : ∀ i, l ≠ instr i) (h : l.height? n = some n') : n' = n := by
  cases l with
  | instr i => exact absurd rfl (hl i)
  | label l => rw [(height?_label.mp h).1, (height?_label.mp h).2]
  | cell | note | blank => exact (Option.some.inj h).symm

end Line

-- The height behind all lines.
def Code.height? (n : Nat) (c : Code) : Option Nat :=
  c.foldlM Line.height? n

namespace Code

variable {c code : Code} {n pc : Nat} {l : Line}

@[simp]
theorem height?_nil (n : Nat) : height? n [] = some n :=
  rfl

@[simp]
theorem height?_cons (n : Nat) (l : Line) (c : Code) :
    height? n (l :: c) = (l.height? n).bind (height? · c) :=
  rfl

@[simp]
theorem height?_append (n : Nat) (c d : Code) :
    height? n (c ++ d) = (height? n c).bind (height? · d) :=
  List.foldlM_append

-- Where the heights of all lines are right, so are those of a part.
theorem exists_height?_of_at (h : code.height? 0 = some n) (hc : code.At pc c) :
    ∃ m m', height? 0 (code.take pc) = some m ∧ c.height? m = some m' ∧
      height? 0 (code.take (pc + c.length)) = some m' := by
  have ⟨d, hd⟩ := hc
  have htake : code.take (pc + c.length) = code.take pc ++ c := by
    rw [List.take_add, ← hd, List.take_left]
  rw [← List.take_append_drop pc code, ← hd] at h
  simp only [height?_append, Option.bind_eq_some_iff] at h
  obtain ⟨m, hm, m', hm', -⟩ := h
  exact ⟨m, m', hm, hm', by simp [htake, hm, hm']⟩

theorem exists_height?_of_line (h : code.height? 0 = some n) (hl : code[pc]? = some l) :
    ∃ m m', height? 0 (code.take pc) = some m ∧ l.height? m = some m' ∧
      height? 0 (code.take (pc + 1)) = some m' := by
  have ⟨hlt, hl⟩ := List.getElem?_eq_some_iff.mp hl
  have hat : code.At pc [l] := ⟨code.drop (pc + 1), by simp [← hl]⟩
  obtain ⟨m, m', hm, hm', htake⟩ := exists_height?_of_at h hat
  refine ⟨m, m', hm, ?_, htake⟩
  simpa [Option.bind_eq_some_iff] using hm'

theorem height?_take_label {l : Label} (h : code.height? 0 = some n)
    (hl : code[pc]? = some (.label l)) : height? 0 (code.take pc) = some 0 := by
  obtain ⟨m, m', hm, hm', -⟩ := exists_height?_of_line h hl
  rw [hm, (Line.height?_label.mp hm').1]

end Code

namespace State

variable {α : Type} {code : Code} {s t : State α} {i : Instr} {n : Nat}

-- The stack is as high as the lines before the current one make it.
def Level (code : Code) (s : State α) : Prop :=
  Code.height? 0 (code.take s.pc) = some s.stack.length

theorem Level.start (code : Code) (hpc : s.pc = 0) (hstack : s.stack = []) : s.Level code := by
  rw [Level, hpc, hstack]
  rfl

variable [Word α] [DecidableEq α]

theorem length_stack_of_exec? (h : s.exec? code i = some t)
    (hn : (Line.instr i).height? s.stack.length = some n) : t.stack.length = n := by
  cases i with
  | load | cmp =>
    obtain ⟨v, hv, rfl⟩ := Option.map_eq_some_iff.mp h
    exact Option.some.inj hn
  | store x r =>
    obtain ⟨v, hv, rfl⟩ := Option.map_eq_some_iff.mp h
    have ⟨hs, hzero⟩ := Line.height?_store.mp hn
    exact hs.trans hzero.symm
  | push | add | sub | mul | dec =>
    cases h
    exact Option.some.inj hn
  | pop r =>
    obtain ⟨v, stack, hstack, rfl⟩ := exec?_pop h
    rw [Line.height?_pop, hstack] at hn
    exact Nat.succ.inj hn
  | jump j l =>
    have ⟨hs, hzero⟩ := Line.height?_jump.mp hn
    obtain ⟨_, rfl⟩ | ⟨pc, hpc, rfl⟩ := exec?_jump h <;> exact hs.trans hzero.symm
  | halt => nomatch h

namespace Level

theorem step (hcode : code.height? 0 = some n) (hs : s.Level code) (h : s.step? code = some t) :
    t.Level code := by
  obtain ⟨l, hl, hne, rfl⟩ | ⟨i, hi, h⟩ := step?_cases h
  case inl =>
    obtain ⟨m, m', hm, hm', htake⟩ := Code.exists_height?_of_line hcode hl
    cases hs.symm.trans hm
    rwa [Line.eq_of_height? hne hm'] at htake
  case inr =>
    obtain ⟨m, m', hm, hm', htake⟩ := Code.exists_height?_of_line hcode hi
    cases hs.symm.trans hm
    have hlength := length_stack_of_exec? h hm'
    obtain hpc | ⟨j, l, rfl, htarget⟩ := pc_of_exec? h
    case inl => rwa [Level, hpc, hlength]
    case inr =>
      have hzero := (Line.height?_jump.mp hm').2
      rw [Level, hlength, hzero]
      exact Code.height?_take_label hcode (Code.label_of_target? htarget)

theorem of_reaches (hcode : code.height? 0 = some n) (hs : s.Level code)
    (h : Reaches (step? code) s t) : t.Level code :=
  invariant (·.step hcode) hs h

end Level

end State

end Asm

open Asm

theorem Expr.height?_asm (e : Expr) (n : Nat) : Code.height? n e.asm = some n := by
  induction e generalizing n with
  | num | var => rfl
  | bin op l r ihl ihr => cases op <;> simp [asm, arith, ihl, ihr, Line.height?]

theorem Cond.height?_asmExit (test : Cond) (exit : Label) :
    Code.height? 0 (test.asmExit exit) = some 0 := by
  simp [asmExit, Expr.height?_asm, Line.height?]

-- The code of a statement starts where the stack is empty.
theorem Stmt.eq_zero_of_height? {s : Stmt} {n n' m m' : Nat} {c : Code} (h : s.asm n = .ok (c, n'))
    (hm : c.height? m = some m') : m = 0 := by
  cases s with
  | declare x e =>
    cases h
    simp_all [Expr.height?_asm]
  | assign x e =>
    simp only [asm] at h
    split at h
    case isTrue =>
      cases h
      simp only [decrement, Code.height?_cons, Option.bind_eq_some_iff, Line.height?_jump] at hm
      obtain ⟨_, hnote, _, hload, _, hcmp, _, ⟨hzero, -⟩, -⟩ := hm
      cases hnote
      cases hload
      cases hcmp
      exact hzero
    case isFalse =>
      cases h
      simp_all [Expr.height?_asm]
  | loop test b =>
    simp only [asm, bind_eq_ok, pure_eq_ok, Prod.mk.injEq] at h
    obtain ⟨⟨cb, _⟩, hb, rfl, -⟩ := h
    simp [Option.bind_eq_some_iff] at hm
    exact hm.1
  | branch => cases h

theorem Program.height?_asm {p : Program} {n n' : Nat} {c : Code} (h : p.asm n = .ok (c, n')) :
    c.height? 0 = some 0 := by
  have store : ∀ {x : String} {e : Expr} {c : Code}, c.height? 0 = some 0 →
      Code.height? 0 (e.asm ++ [.instr (.store x .a)] ++ c) = some 0 := fun ih => by
    simp [Expr.height?_asm, Line.height?, ih]
  refine asm_induction (P := fun _ _ c _ => c.height? 0 = some 0) ?_ store (fun _ => store) ?_ ?_ h
  case refine_1 => exact fun _ => rfl
  case refine_2 => exact fun ih => by simp [decrement, Line.height?, ih]
  case refine_3 => exact fun ihb ih => by simp [Cond.height?_asmExit, Line.height?, ihb, ih]

theorem Stmt.height?_asm {s : Stmt} {n n' : Nat} {c : Code} (h : s.asm n = .ok (c, n')) :
    c.height? 0 = some 0 := by
  have hs : Program.asm n [s] = .ok (c ++ [], n') := by
    simp only [Program.asm, bind_eq_ok]
    exact ⟨_, h, _, rfl, rfl⟩
  simpa using Program.height?_asm hs

theorem Asm.Code.height?_whole {names : List String} {c : Code} (h : c.height? 0 = some 0) :
    (whole names c).height? 0 = some 0 := by
  have hcells : Code.height? 0 (names.map .cell) = some 0 := by
    induction names with
    | nil => rfl
    | cons x names ih => exact ih
  simp [whole, Line.height?, hcells, h]

end Imp
