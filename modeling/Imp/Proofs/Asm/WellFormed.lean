import Imp.Proofs.Asm.Execution
import Imp.Proofs.Asm.Stack
import Imp.Proofs.Dialects

/-!
Assembly code is well formed, and there is code of just the programs without conditionals.
-/

open Relation StateTransition

namespace Imp

open Asm

namespace Program

-- A line at which the code of a statement starts, or the one behind its code.
def Boundary (p : Program) (code : Code) (pc : Nat) : Prop :=
  ∃ s ∈ p.parts, ∃ n c n' first, s.asm n = .ok (c, n') ∧ code.At first c ∧
    (pc = first ∨ pc = first + c.length)

-- Names are given once, jumps lead to a label, and the code of every statement is there.
structure WellFormed (p : Program) (code : Code) : Prop where
  nodup_defined : code.defined.Nodup
  jump : ∀ j l, .instr (.jump j l) ∈ code → .label l ∈ code ∧ code.defined.count l.text = 1
  halts : code.getLast? = some (.instr .halt)
  laysOut : ∀ s ∈ p.parts, ∃ n c n' first, s.asm n = .ok (c, n') ∧ code.At first c

end Program

namespace Asm

-- The machine is at a line that is code, and its stack holds what the line takes from it.
structure State.Safe {α : Type} (p : Program) (code : Code) (s : State α) : Prop where
  pc_lt : s.pc < code.length
  not_cell : ∀ x, code[s.pc]? ≠ some (.cell x)
  pop : ∀ r, code[s.pc]? = some (.instr (.pop r)) → s.stack ≠ []
  boundary : p.Boundary code s.pc → s.stack = []

theorem Code.getLast?_whole (names : List String) (c : Code) :
    (whole names c).getLast? = some (.instr .halt) :=
  List.getLast?_concat

-- In front of a cell there is another one, or the jump over the cells.
theorem Code.before_cell {names : List String} {c : Code} {x : String} {pc : Nat}
    (hc : .cell x ∉ c) (h : (whole names c)[pc + 1]? = some (.cell x)) :
    (whole names c)[pc]? = some (.instr (.jump .always .start)) ∨
      ∃ y, (whole names c)[pc]? = some (.cell y) := by
  simp only [whole, List.cons_append, List.append_assoc, List.getElem?_cons_succ] at h ⊢
  by_cases hlt : pc < names.length
  case pos =>
    cases pc with
    | zero => exact .inl rfl
    | succ k => exact .inr ⟨names[k], by grind⟩
  case neg =>
    rw [List.getElem?_append_right (by simpa using hlt)] at h
    simpa [hc] using List.mem_of_getElem? h

theorem Code.exists_next {code : Code} {l : Line} {pc : Nat}
    (hlast : code.getLast? = some (.instr .halt)) (hl : code[pc]? = some l)
    (hne : l ≠ .instr .halt) : ∃ l', code[pc + 1]? = some l' := by
  have hlt := (List.getElem?_eq_some_iff.mp hl).1
  have hlast : code[code.length - 1]? = some (.instr .halt) := by rwa [← List.getLast?_eq_getElem?]
  have hpc : pc ≠ code.length - 1 := by
    rintro rfl
    exact hne (Option.some.inj (hl.symm.trans hlast))
  exact ⟨_, List.getElem?_eq_getElem (by omega)⟩

namespace State

variable {α : Type} {code : Code} {s t : State α}

-- The machine is at a line that is no cell.
def OnCode (code : Code) (s : State α) : Prop :=
  ∃ l, code[s.pc]? = some l ∧ ∀ x, l ≠ .cell x

theorem OnCode.start (names : List String) (c : Code) (hpc : s.pc = 0) :
    s.OnCode (.whole names c) :=
  ⟨.instr (.jump .always .start), by rw [hpc]; rfl, nofun⟩

variable [Word α] [DecidableEq α]

theorem target_of_step?_always {l : Label} (h : s.step? code = some t)
    (hl : code[s.pc]? = some (.instr (.jump .always l))) : code.target? l = some t.pc := by
  simp only [step?, hl, exec?, Jump.taken, if_true] at h
  obtain ⟨pc, hpc, rfl⟩ := Option.map_eq_some_iff.mp h
  exact hpc

theorem OnCode.step {names : List String} {c : Code} (hc : ∀ x, .cell x ∉ c)
    (hs : s.OnCode (.whole names c)) (h : s.step? (.whole names c) = some t) :
    t.OnCode (.whole names c) := by
  obtain ⟨l, hl, hcell⟩ := hs
  obtain hpc | ⟨j, l, hj, htarget⟩ := pc_of_step? h
  case inr => exact ⟨_, Code.label_of_target? htarget, by simp⟩
  case inl =>
    have hhalt : l ≠ .instr .halt := by
      rintro rfl
      simp [step?, hl, exec?] at h
    obtain ⟨l', hl'⟩ := Code.exists_next (Code.getLast?_whole names c) hl hhalt
    refine ⟨l', hpc ▸ hl', ?_⟩
    rintro x rfl
    obtain hjump | ⟨y, hy⟩ := Code.before_cell (hc x) hl'
    case inl =>
      have htarget := Code.label_of_target? (target_of_step?_always h hjump)
      rw [hpc, hl'] at htarget
      cases htarget
    case inr => exact hcell y (Option.some.inj (hl.symm.trans hy))

theorem OnCode.of_reaches {names : List String} {c : Code} (hc : ∀ x, .cell x ∉ c)
    (hs : s.OnCode (.whole names c)) (h : Reaches (step? (.whole names c)) s t) :
    t.OnCode (.whole names c) :=
  invariant (·.step hc) hs h

end State

end Asm

theorem Dialect.IsName.unbroken {d : Dialect} {x : String} (h : d.IsName x) : Unbroken x := by
  have hbreaks : ∀ c ∈ breaks, ¬Token.Lexer.isWordChar c := by
    simp only [breaks, List.forall_mem_cons]
    exact ⟨by decide, by decide, by decide, List.forall_mem_nil _⟩
  exact fun c hc hbreak => hbreaks c hbreak (List.all_eq_true.mp h.letters c hc)

namespace Program

variable {p : Program} {n n' : Nat} {c code : Code}

theorem unconditional_of_asm (h : p.asm n = .ok (c, n')) : p.Unconditional := by
  intro test t f hmem
  obtain ⟨_, _, _, _, hs, -⟩ := Program.laysOut _ p hmem _ _ _ h
  nomatch hs

-- All code is that of the statements, between the cells and the end.
theorem exists_asm_of_asmCode (h : p.asmCode = .ok code) :
    ∃ c n, p.asm 0 = .ok (c, n) ∧ code = .whole (p.names .declarationsAndAssignments) c := by
  have hok := h
  simp only [asmCode, bind_eq_ok] at hok
  obtain ⟨⟨c, n⟩, hc, -⟩ := hok
  exact ⟨c, n, hc, Except.ok.inj (h.symm.trans (asmCode_eq hc))⟩

theorem exists_asmText_iff : (∃ text, p.asmText = .ok text) ↔ p.Unconditional := by
  constructor
  case mp =>
    rintro ⟨text, h⟩
    simp only [asmText, bind_eq_ok] at h
    obtain ⟨code, hcode, -⟩ := h
    obtain ⟨c, n, hc, -⟩ := exists_asm_of_asmCode hcode
    exact unconditional_of_asm hc
  case mpr =>
    intro h
    obtain ⟨⟨c, n⟩, hc⟩ := exists_asm h 0
    exact ⟨_, asmText_eq hc⟩

theorem asmText_eq_error (h : ¬p.Unconditional) : p.asmText = .error .conditional := by
  cases htext : p.asmText with
  | ok text => exact absurd (exists_asmText_iff.mp ⟨text, htext⟩) h
  | error e => cases e; rfl

theorem unconditional_of_parse {source : String} (h : Dialect.loop.parse source = .ok p) :
    p.Unconditional := by
  obtain ⟨ts, -, hp⟩ := Dialect.parse_eq_ok_iff.mp h
  exact Grammar.unconditional_of_loop hp

theorem wellFormed_whole (h : p.asm 0 = .ok (c, n)) :
    p.WellFormed (.whole (p.names .declarationsAndAssignments) c) where
  nodup_defined := nodup_defined_whole h nodup_names
  jump j l hj := by
    have hl := label_mem_whole_of_jump h hj
    refine ⟨hl, List.count_eq_one_of_mem (nodup_defined_whole h nodup_names) ?_⟩
    exact Code.mem_defined_iff.mpr (.inl ⟨l, hl, rfl⟩)
  halts := Code.getLast?_whole _ c
  laysOut s hs := by
    obtain ⟨m, cs, m', first, hcs, hat⟩ := Program.laysOut s p hs _ _ _ h
    have hwhole := (Code.whole_at (p.names .declarationsAndAssignments) c).tail.left
    exact ⟨m, cs, m', _, hcs, hwhole.trans hat⟩

theorem Boundary.height?_eq_zero {pc : Nat} (h : p.Boundary code pc)
    (hcode : code.height? 0 = some 0) : Code.height? 0 (code.take pc) = some 0 := by
  obtain ⟨s, -, n, c, n', first, hs, hat, hpc⟩ := h
  obtain ⟨m, m', hm, hm', htake⟩ := Code.exists_height?_of_at hcode hat
  cases Stmt.eq_zero_of_height? hs hm'
  obtain rfl | rfl := hpc
  case inl => exact hm
  case inr => rw [htake, ← hm', Stmt.height?_asm hs]

section

variable {α : Type} [Word α] [DecidableEq α] {s t : State α}

theorem safe_of_reaches (h : p.asm 0 = .ok (c, n)) {names : List String} (hpc : s.pc = 0)
    (hstack : s.stack = []) (hs : Reaches (State.step? (.whole names c)) s t) :
    t.Safe p (.whole names c) := by
  have hcode : (Code.whole names c).height? 0 = some 0 := Code.height?_whole (height?_asm h)
  have hlevel := State.Level.of_reaches hcode (.start _ hpc hstack) hs
  obtain ⟨l, hl, hcell⟩ := State.OnCode.of_reaches (cell_not_mem_asm h) (.start names c hpc) hs
  refine ⟨(List.getElem?_eq_some_iff.mp hl).1, fun x hx => ?_, fun r hr => ?_, fun hb => ?_⟩
  case refine_1 => exact hcell x (Option.some.inj (hl.symm.trans hx))
  case refine_2 =>
    obtain ⟨m, m', hm, hm', -⟩ := Code.exists_height?_of_line hcode hr
    cases hlevel.symm.trans hm
    exact List.ne_nil_of_length_eq_add_one (Line.height?_pop.mp hm')
  case refine_3 =>
    exact List.length_eq_zero_iff.mp (Option.some.inj (hlevel.symm.trans (hb.height?_eq_zero hcode)))

end

-- There is code of just the programs without conditionals, such as those of the loop dialect; it is
-- well formed, and the machine goes through it safely from its first line on, whatever it holds. With
-- names of the lexer its text is read as the code, so that the machine goes through the text alike.
theorem asm_wellFormed (p : Program) :
    ((∃ text, p.asmText = .ok text) ↔ p.Unconditional) ∧
    (¬p.Unconditional → p.asmText = .error .conditional) ∧
    (∀ source, Dialect.loop.parse source = .ok p → p.Unconditional) ∧
    ∀ code, p.asmCode = .ok code → p.asmText = .ok code.text ∧ p.WellFormed code ∧
      (∀ (α : Type) [Word α] [DecidableEq α] (s t : State α), s.pc = 0 → s.stack = [] →
        Reaches (State.step? code) s t → t.Safe p code) ∧
      ∀ d : Dialect, (∀ x ∈ p.mentions, d.IsName x) →
        Script.read? code.text = some code.script ∧
        ∀ (α : Type) [Word α] [DecidableEq α] (u : Script.State α),
          Reaches (Script.State.step? code.script) (.start code.script) u →
          ∃ t : State α, u = t.written ∧ t.Safe p code := by
  refine ⟨exists_asmText_iff, asmText_eq_error, fun _ => unconditional_of_parse, fun code h => ?_⟩
  obtain ⟨c, n, hc, rfl⟩ := exists_asm_of_asmCode h
  refine ⟨asmText_eq hc, wellFormed_whole hc, fun α _ _ s t => safe_of_reaches hc, fun d hd =>
    ⟨read?_whole hc fun x hx => (hd x hx).unbroken, fun α _ _ u hu => ?_⟩⟩
  obtain ⟨t, ht, rfl⟩ := exists_of_reaches_script hc nodup_names hu
  exact ⟨t, rfl, safe_of_reaches hc rfl rfl ht⟩

end Program

end Imp
