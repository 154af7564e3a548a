import Imp.Proofs.Asm.Decrement
import Imp.Proofs.Asm.Execution
import Imp.Proofs.Asm.Fragments
import Imp.Proofs.Exact
import Imp.Proofs.Names

/-!
On integers without bounds, the code of a program that subtracts nothing but one from a variable
never makes anything negative, however long it runs: a saturating decrement is entered at its first
line only, and decreases the accumulator only when that is not zero.
-/

open Relation StateTransition

namespace Imp

open Asm

namespace Asm

-- Integers without bounds. As unsigned numbers the negative ones are above all others.
instance : Word Int where
  ofInt := id
  apply := Operator.exact
  add_comm := Int.add_comm
  below a b := if a < 0 ↔ b < 0 then a < b else b < 0

-- Nothing that the machine holds is negative.
structure State.Nonneg (s : State Int) : Prop where
  registers : ∀ r, 0 ≤ s.registers r
  stack : ∀ v ∈ s.stack, 0 ≤ v
  cells : ∀ x v, s.cells x = some v → 0 ≤ v

namespace State.Nonneg

variable {code : Code} {s t : State Int} {i : Instr}

theorem put (h : s.Nonneg) {r : Register} {v : Int} (hv : 0 ≤ v) : (s.put r v).Nonneg where
  registers q := by
    simp only [State.put]
    split
    case isTrue => exact hv
    case isFalse => exact h.registers q
  stack := h.stack
  cells := h.cells

theorem written_registers (h : s.Nonneg) (w : String) : 0 ≤ s.written.registers w := by
  simp only [State.written]
  cases Register.named? w with
  | none => exact Int.le_refl 0
  | some r => exact h.registers r

theorem read (h : s.Nonneg) {o : Operand} {v : Int} (ho : ∀ w, o = .const w → 0 ≤ w)
    (hv : s.read? o = some v) : 0 ≤ v := by
  cases o with
  | const w =>
    obtain rfl := Option.some.inj hv
    exact Int32.le_iff_toInt_le.mp (ho w rfl)
  | cell x => exact h.cells x v hv
  | register r =>
    obtain rfl := Option.some.inj hv
    exact h.registers r

-- What an instruction does keeps this, unless it subtracts.
theorem exec (h : s.Nonneg) (hload : ∀ r v, i = .load r (.const v) → 0 ≤ v)
    (hsub : ∀ r q, i ≠ .sub r q) (hdec : ∀ r, i = .dec r → s.registers r ≠ 0)
    (ht : s.exec? code i = some t) : t.Nonneg := by
  cases i with
  | load r o =>
    obtain ⟨v, hv, rfl⟩ := Option.map_eq_some_iff.mp ht
    exact h.put (h.read (fun w hw => hload r w (hw ▸ rfl)) hv)
  | store x r =>
    obtain ⟨v, hv, rfl⟩ := Option.map_eq_some_iff.mp ht
    refine ⟨h.registers, h.stack, fun y w hw => ?_⟩
    by_cases hy : y = x
    case pos =>
      simp only [if_pos hy, Option.some.injEq] at hw
      exact hw ▸ h.registers r
    case neg =>
      simp only [if_neg hy] at hw
      exact h.cells y w hw
  | push r =>
    cases ht
    exact ⟨h.registers, List.forall_mem_cons.mpr ⟨h.registers r, h.stack⟩, h.cells⟩
  | pop r =>
    obtain ⟨v, stack, hstack, rfl⟩ := exec?_pop ht
    have ⟨hv, hrest⟩ := List.forall_mem_cons.mp (hstack ▸ h.stack)
    exact put (s := { s with stack := stack }) ⟨h.registers, hrest, h.cells⟩ hv
  | add r q =>
    cases ht
    exact h.put (Int.add_nonneg (h.registers r) (h.registers q))
  | sub r q => exact absurd rfl (hsub r q)
  | mul r =>
    cases ht
    exact h.put (Int.mul_nonneg (h.registers .a) (h.registers r))
  | dec r =>
    cases ht
    have := h.registers r
    have := hdec r rfl
    refine h.put ?_
    have : Word.apply .sub (s.registers r) (Word.ofInt 1) = s.registers r - 1 := rfl
    omega
  | cmp r o =>
    obtain ⟨v, hv, rfl⟩ := Option.map_eq_some_iff.mp ht
    exact ⟨h.registers, h.stack, h.cells⟩
  | jump j l =>
    obtain ⟨_, rfl⟩ | ⟨pc, hpc, rfl⟩ := exec?_jump ht
    case inl => exact h
    case inr => exact ⟨h.registers, h.stack, h.cells⟩
  | halt => nomatch ht

end State.Nonneg

-- What holds in every state that the code reaches: nothing is negative, the jump of a decrement
-- finds the accumulator compared with zero, and behind it the accumulator is not zero.
structure State.Guarded (code : Code) (s : State Int) : Prop where
  nonneg : s.Nonneg
  compared : ∀ {first x n}, code.At first (decrement x n) → s.pc = first + 3 →
    s.flags = (s.registers .a, 0)
  positive : ∀ {first x n}, code.At first (decrement x n) → s.pc = first + 4 →
    s.registers .a ≠ 0

section Guarded

variable {code : Code} {s t : State Int} {first n : Nat} {x : String}

-- Inside of the code of a decrement the only label is the last line, and the only jump to that is
-- its own.
theorem within_of_step? (hn : code.numbers.Nodup) (hc : code.Saturating)
    (hat : code.At first (decrement x n)) (h : s.step? code = some t) (hlo : first < t.pc)
    (hhi : t.pc < first + (decrement x n).length) :
    first ≤ s.pc ∧ s.pc < first + (decrement x n).length := by
  obtain hpc | ⟨j, l, hj, htarget⟩ := State.pc_of_step? h
  case inl => omega
  case inr =>
    obtain ⟨k, hk⟩ := Nat.exists_eq_add_of_lt hlo
    have hlabel := Code.label_of_target? htarget
    rw [show t.pc = first + (k + 1) by omega, hat.getElem? (by omega)] at hlabel
    have : k = 5 ∧ l = .decremented x n := by grind [decrement]
    obtain ⟨rfl, rfl⟩ := this
    obtain ⟨first', hpc, hat'⟩ := hc.jump hj
    have hlast := Code.target?_eq hn hat'.tail.tail.tail.tail.tail.tail.head
    have := Option.some.inj (htarget.symm.trans hlast)
    simp only [decrement, List.length_cons, List.length_nil] at *
    omega

namespace State.Guarded

variable (hs : s.Guarded code) (hc : code.Saturating) (h : s.step? code = some t)
include hs hc h

theorem step_nonneg : t.Nonneg := by
  have hnext : s.next.Nonneg := ⟨hs.nonneg.registers, hs.nonneg.stack, hs.nonneg.cells⟩
  obtain ⟨l, hl, _, rfl⟩ | ⟨i, hi, h⟩ := step?_cases h
  case inl => exact hnext
  case inr =>
    have hmem := List.mem_of_getElem? hi
    refine hnext.exec ?_ ?_ ?_ h
    case refine_1 => exact fun r v hload => hc.load_nonneg (hload ▸ hmem)
    case refine_2 => exact fun r q hsub => hc.not_sub (hsub ▸ hmem)
    case refine_3 =>
      rintro r rfl
      obtain ⟨first, x, n, rfl, hpc, hat⟩ := hc.dec hi
      exact hs.positive hat hpc

omit hs hc in
theorem step_compared (hat : code.At first (decrement x n)) (hpc : t.pc = first + 3) :
    t.flags = (t.registers .a, 0) := by
  have hline : s.pc = first + 2 := by
    have := pc_of_step?_instr h (hpc ▸ hat.tail.tail.tail.head)
    omega
  rw [State.step?_of_at (hline ▸ hat.tail.tail)] at h
  cases h
  rfl

omit hc in
theorem step_positive (hat : code.At first (decrement x n)) (hpc : t.pc = first + 4) :
    t.registers .a ≠ 0 := by
  have hline : s.pc = first + 3 := by
    have := pc_of_step?_instr h (hpc ▸ hat.tail.tail.tail.tail.head)
    omega
  have hflags := hs.compared hat hline
  rw [State.step?_of_at (hline ▸ hat.tail.tail.tail)] at h
  obtain ⟨htaken, rfl⟩ | ⟨pc, htarget, rfl⟩ := exec?_jump h
  case inl =>
    have hflags : s.next.flags = (s.registers .a, 0) := hflags
    simp only [Jump.taken, hflags, decide_eq_false_iff_not] at htaken
    exact htaken
  case inr =>
    have := Code.label_of_target? htarget
    rw [show pc = first + 4 from hpc, hat.tail.tail.tail.tail.head] at this
    cases this

theorem step : t.Guarded code where
  nonneg := hs.step_nonneg hc h
  compared := step_compared h
  positive := hs.step_positive h

end State.Guarded

theorem State.Guarded.start : (State.start code : State Int).Guarded code where
  nonneg := by
    refine ⟨fun _ => Int.le_refl 0, nofun, fun x v hv => ?_⟩
    simp only [State.start, Option.ite_none_right_eq_some] at hv
    exact (Option.some.inj hv.2).le
  compared _ h := nomatch h
  positive _ h := nomatch h

theorem State.Guarded.of_reaches (hc : code.Saturating)
    (h : Reaches (State.step? code) (State.start code) s) : s.Guarded code :=
  State.invariant (·.step hc) .start h

theorem isSome_cells_of_reaches (h : Reaches (State.step? code) (State.start code : State Int) s) :
    (s.cells x).isSome ↔ .cell x ∈ code := by
  refine State.invariant (P := fun s => (s.cells x).isSome ↔ .cell x ∈ code) ?_ ?_ h
  case refine_1 => exact fun ih hstep => by rw [State.isSome_cells_of_step? hstep, ih]
  case refine_2 => simp [State.start]

theorem decrement_saturates (hn : code.numbers.Nodup) (hs : s.Nonneg)
    (hat : code.At s.pc (decrement x n)) {v : Int} (hv : s.cells x = some v) :
    ∃ t ∈ eval (State.stepWithin? code s.pc (decrement x n).length) s,
      s.Stored t (decrement x n).length x (max (v - 1) 0) := by
  have hnonneg := hs.cells x v hv
  by_cases hzero : v = 0
  case pos =>
    have : max (v - 1) 0 = v := by omega
    rw [this]
    exact decrement_passes_zero hat hv hn hzero
  case neg =>
    have : max (v - 1) 0 = v - 1 := by omega
    rw [this]
    exact decrement_passes hat hv hzero

end Guarded

end Asm

namespace Program

variable {p : Program}

-- What the code of a program that only adds, multiplies and decreases variables by one keeps to.
theorem code_saturates {c : Code} {m : Nat} (hc : p.asm 0 = .ok (c, m))
    {code : Code}
    (hcode : code = .whole (p.names .declarationsAndAssignments) c)
    (hs : ∀ s ∈ p.parts, s.Saturating) {s : State Int}
    (hreach : Reaches (State.step? code) (State.start code) s) :
    s.Nonneg ∧ ∀ first x n, code.At first (decrement x n) →
      (∀ t, s.step? code = some t → first < t.pc → t.pc < first + (decrement x n).length →
        first ≤ s.pc ∧ s.pc < first + (decrement x n).length) ∧
      (s.pc = first → ∃ v, s.cells x = some v ∧
        ∃ t ∈ eval (State.stepWithin? code first (decrement x n).length) s,
          s.Stored t (decrement x n).length x (max (v - 1) 0)) := by
  subst hcode
  have hn := nodup_numbers_whole hc (p.names .declarationsAndAssignments)
  have hsat := whole_saturating hc hs (p.names .declarationsAndAssignments)
  have hguard := State.Guarded.of_reaches hsat hreach
  refine ⟨hguard.nonneg, fun first x n hat => ⟨fun t => within_of_step? hn hsat hat, ?_⟩⟩
  rintro rfl
  have hcell : (s.cells x).isSome := by
    have hstore := List.mem_of_getElem? hat.tail.tail.tail.tail.tail.head
    rw [isSome_cells_of_reaches hreach, cell_mem_whole hc, mem_names]
    exact mem_introduced_of_store hc (store_mem_whole.mp hstore)
  have ⟨v, hv⟩ := Option.isSome_iff_exists.mp hcell
  exact ⟨v, hv, decrement_saturates hn hguard.nonneg hat hv⟩

-- The assembly of a program that only adds, multiplies and decreases variables by one never makes
-- anything negative, if no name takes a line apart. Each such decrease has its fragment of the
-- code, which is entered at its first line only, and every pass through it takes one from its cell
-- unless that is zero.
theorem asm_saturates (hp : p.Unconditional) (unbroken : ∀ x ∈ p.mentions, Unbroken x)
    (hs : ∀ s ∈ p.parts, s.Saturating) :
    ∃ code, p.asmCode = .ok code ∧ p.asmText = .ok code.text ∧
      Script.read? code.text = some code.script ∧
      (∀ x, .assign x (.bin .sub (.var x) (.num 1)) ∈ p.parts →
        ∃ first n, code.At first (decrement x n)) ∧
      ∀ t, Reaches (Script.State.step? code.script)
          (Script.State.start code.script : Script.State Int) t →
        (∀ r, 0 ≤ t.registers r) ∧ (∀ v ∈ t.stack, 0 ≤ v) ∧
        (∀ w v, t.memory w = some v → 0 ≤ v) ∧
        ∀ first x n, code.At first (decrement x n) →
          (∀ u, t.step? code.script = some u → first < u.pc →
            u.pc < first + (decrement x n).length →
            first ≤ t.pc ∧ t.pc < first + (decrement x n).length) ∧
          (t.pc = first → ∃ v, t.memory (cellName x) = some v ∧
            ∃ u ∈ eval (Script.State.stepWithin? code.script first (decrement x n).length) t,
              u.pc = first + (decrement x n).length ∧
              u.memory = fun w => if w = cellName x then some (max (v - 1) 0) else t.memory w) := by
  have ⟨(c, m), hc⟩ := exists_asm hp 0
  refine ⟨_, asmCode_eq hc, asmText_eq hc, read?_whole hc unbroken, ?_, fun t hreach => ?_⟩
  case refine_1 =>
    intro x hx
    have ⟨first, n, hat⟩ := exists_decrement hc hx
    exact ⟨_, n, (hat.append_left _).append_right _⟩
  case refine_2 =>
    obtain ⟨s, hstate, rfl⟩ := exists_of_reaches_script hc nodup_names hreach
    obtain ⟨hnonneg, hfragments⟩ := code_saturates hc rfl hs hstate
    refine ⟨hnonneg.written_registers, hnonneg.stack, fun w v hw => ?_, fun first x n hat =>
      ⟨fun u hu => ?_, fun hpc => ?_⟩⟩
    case refine_1 =>
      obtain ⟨x, rfl, hx⟩ := State.exists_of_written_memory hw
      exact hnonneg.cells x v hx
    case refine_2 =>
      rw [step?_script hc nodup_names] at hu
      obtain ⟨t, ht, rfl⟩ := Option.map_eq_some_iff.mp hu
      exact (hfragments first x n hat).1 t ht
    case refine_3 =>
      obtain ⟨v, hv, t, ht, hstored⟩ := (hfragments first x n hat).2 hpc
      refine ⟨v, s.written_memory x ▸ hv, t.written, mem_eval_script hc nodup_names ht,
        hpc ▸ hstored.pc, State.written_memory_of_cells hstored.cells⟩

-- A loop that never ends: its variable is decreased again and again, and stays at zero.
def endless : Program :=
  [.declare "x" (.num 2),
    .loop ⟨.ge, .var "x", .num 0⟩ [.assign "x" (.bin .sub (.var "x") (.num 1))]]

theorem endless_saturates :
    endless.Unconditional ∧ (∀ x ∈ endless.mentions, Unbroken x) ∧
      (∀ s ∈ endless.parts, s.Saturating) ∧
      ∃ code : Code, endless.asmText = .ok code.text ∧ Script.read? code.text = some code.script ∧
        (∃ first n, code.At first (decrement "x" n)) ∧
        ∀ t, Reaches (Script.State.step? code.script)
            (Script.State.start code.script : Script.State Int) t →
          ∀ v, t.memory "var_x" = some v → 0 ≤ v := by
  have hp : endless.Unconditional := by simp [Unconditional, endless, parts, Stmt.parts]
  have unbroken : ∀ x ∈ endless.mentions, Unbroken x := by decide
  have hs : ∀ s ∈ endless.parts, s.Saturating := by
    simp [endless, parts, Stmt.parts, Stmt.Saturating, Stmt.exprs, Expr.Rising]
  obtain ⟨code, -, htext, hread, hat, hreach⟩ := asm_saturates hp unbroken hs
  exact ⟨hp, unbroken, hs, code, htext, hread, hat "x" (by simp [endless, parts, Stmt.parts]),
    fun t ht => (hreach t ht).2.2.1 "var_x"⟩

-- A program with lines of code in a name.
def smuggler : Program :=
  [.declare "x: DB 0\nstart:\nMOV A, -5\n;" (.num 0)]

def smugglerText : String :=
  "JMP start\nvar_x: DB 0\nstart:\nMOV A, -5\n;: DB 0\n\nstart:\nMOV A, 0\n" ++
    "MOV [var_x: DB 0\nstart:\nMOV A, -5\n;], A\nHLT\n"

theorem smuggler_negative :
    smuggler.Unconditional ∧ (∀ s ∈ smuggler.parts, s.Saturating) ∧
      ∃ text script, smuggler.asmText = .ok text ∧ Script.read? text = some script ∧
        ∃ t, Reaches (Script.State.step? script) (Script.State.start script) t ∧
          t.registers "A" = (-5 : Int) := by
  have hp : smuggler.Unconditional := by simp [Unconditional, smuggler, parts, Stmt.parts]
  have hs : ∀ s ∈ smuggler.parts, s.Saturating := by
    simp [smuggler, parts, Stmt.parts, Stmt.Saturating, Stmt.exprs, Expr.Rising]
  have hrun : (Script.read? smugglerText).any fun script =>
      ((Option.bind · (Script.State.step? script))^[3] (some (.start script))).any fun t =>
        t.registers "A" = (-5 : Int) := by
    decide +kernel
  obtain ⟨script, hread, t, ht, ha⟩ := Script.exists_reaches_of_read? 3 hrun
  exact ⟨hp, hs, smugglerText, script, by decide +kernel, hread, t, ht, of_decide_eq_true ha⟩

end Program

end Imp
