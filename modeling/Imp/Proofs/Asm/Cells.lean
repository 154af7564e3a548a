import Imp.Proofs.Asm.WellFormed

/-!
The cells that assembly code works on and those that its data section provides. Every name that a
program declares or assigns to has one cell. A name that it only reads has none, although the code
loads it.
-/

namespace Imp

namespace Asm

def Operand.cell? : Operand → Option String
  | cell x => some x
  | const _ | register _ => none

-- The names whose cells an instruction works on.
def Instr.cells : Instr → List String
  | load _ o | cmp _ o => o.cell?.toList
  | store x _ => [x]
  | push _ | pop _ | add .. | sub .. | mul _ | dec _ | jump .. | halt => []

def Line.cells : Line → List String
  | instr i => i.cells
  | label _ | cell _ | note _ | blank => []

-- The names whose cells code works on, as often as it does.
def Code.cells (code : Code) : List String :=
  code.flatMap Line.cells

-- The text of the lines in front of the first label of the code.
def Code.data (code : Code) : List String :=
  (code.takeWhile (· ≠ .label .start)).map Line.text

namespace Code

@[simp]
theorem cells_nil : cells [] = [] :=
  rfl

@[simp]
theorem cells_append (c d : Code) : cells (c ++ d) = cells c ++ cells d :=
  List.flatMap_append

@[simp]
theorem cells_cons (l : Line) (c : Code) : cells (l :: c) = l.cells ++ cells c :=
  List.flatMap_cons

@[simp]
theorem cells_map_cell (names : List String) : cells (names.map .cell) = [] := by
  simp [cells, List.flatMap_map, Line.cells]

theorem cells_whole (names : List String) (c : Code) : (whole names c).cells = c.cells := by
  simp [whole, Line.cells, Instr.cells]

theorem data_whole (names : List String) (c : Code) : (whole names c).data =
    (Line.instr (.jump .always .start) :: names.map Line.cell ++ [Line.blank]).map Line.text := by
  have hbefore : ∀ l ∈ Line.instr (.jump .always .start) :: names.map Line.cell ++ [Line.blank],
      decide (l ≠ .label .start) := by
    intro l hl
    simp only [List.mem_append, List.mem_cons, List.mem_map, List.not_mem_nil, or_false] at hl
    obtain (rfl | ⟨_, _, rfl⟩) | rfl := hl <;> simp
  have hwhole : whole names c =
      (Line.instr (.jump .always .start) :: names.map Line.cell ++ [Line.blank]) ++
        .label .start :: (c ++ [.instr .halt]) := by
    simp [whole]
  rw [data, hwhole, List.takeWhile_append_of_pos hbefore, List.takeWhile_cons_of_neg (by simp),
    List.append_nil]

theorem text_cell_injective : Function.Injective fun x => (Line.cell x).text := fun _ _ h =>
  cellName_injective (String.append_left_inj ": DB 0" |>.mp h)

theorem count_data_whole {names : List String} (h : names.Nodup) (c : Code) (x : String) :
    (whole names c).data.count (Line.cell x).text = if x ∈ names then 1 else 0 := by
  have hhead : (Line.cell x).text.toList.head? = some 'v' := by
    change (cellName x ++ ": DB 0").toList.head? = some 'v'
    simp [cellName]
  have hjump : Line.text (.instr (.jump .always .start)) ≠ (Line.cell x).text := by
    intro h
    rw [← h] at hhead
    exact absurd hhead (by decide)
  have hblank : Line.blank.text ≠ (Line.cell x).text := by
    intro h
    rw [← h] at hhead
    exact absurd hhead (by decide)
  have hcells : (names.map (Line.text ∘ Line.cell)).count (Line.cell x).text = names.count x :=
    List.count_map_of_injective _ _ text_cell_injective _
  rw [data_whole, List.map_append, List.count_append, List.map_cons, List.count_cons_of_ne hjump,
    List.map_map, hcells, List.map_singleton, List.count_singleton]
  simp [hblank, h.count]

end Code

end Asm

open Asm

theorem Expr.cells_asm (e : Expr) : Code.cells e.asm = e.names := by
  induction e with
  | num | var => rfl
  | bin op l r ihl ihr =>
    cases op <;> simp [asm, arith, names, ihl, ihr, Line.cells, Instr.cells, Operand.cell?]

theorem Cond.cells_asmExit (test : Cond) (exit : Label) :
    Code.cells (test.asmExit exit) = test.left.names ++ test.right.names := by
  simp [asmExit, Expr.cells_asm, Line.cells, Instr.cells, Operand.cell?]

-- The names whose cells the code of a statement itself works on.
def Stmt.operands (s : Stmt) : List String :=
  s.reads ++ (s.introduces? .declarationsAndAssignments).toList

@[simp]
theorem Stmt.operands_declare (x : String) (e : Expr) :
    (declare x e).operands = e.names ++ [x] := by
  simp [operands, reads, exprs, introduces?]

@[simp]
theorem Stmt.operands_assign (x : String) (e : Expr) : (assign x e).operands = e.names ++ [x] := by
  simp [operands, reads, exprs, introduces?]

@[simp]
theorem Stmt.operands_loop (test : Cond) (b : Program) :
    (loop test b).operands = test.left.names ++ test.right.names := by
  simp [operands, reads, exprs, introduces?]

namespace Program

variable {p : Program} {n n' : Nat} {c code : Code}

theorem cells_asm (h : p.asm n = .ok (c, n')) : c.cells = p.parts.flatMap Stmt.operands := by
  have store : ∀ {x : String} {e : Expr} {c : Code} {p : Program} {s : Stmt}, s.parts = [s] →
      s.operands = e.names ++ [x] → c.cells = p.parts.flatMap Stmt.operands →
      Code.cells (e.asm ++ [.instr (.store x .a)] ++ c) =
        (parts (s :: p)).flatMap Stmt.operands := by
    intro x e c p s hparts hs ih
    simp [parts, hparts, hs, ih, Expr.cells_asm, Line.cells, Instr.cells]
  refine asm_induction (P := fun p _ c _ => c.cells = p.parts.flatMap Stmt.operands)
    ?_ ?_ ?_ ?_ ?_ h
  case refine_1 => exact fun _ => rfl
  case refine_2 => exact store rfl (Stmt.operands_declare _ _)
  case refine_3 => exact fun _ => store rfl (Stmt.operands_assign _ _)
  case refine_4 =>
    intro x k n c n' ih
    simp [parts, Stmt.parts, Expr.names, ih, Asm.decrement, Line.cells, Instr.cells, Operand.cell?]
  case refine_5 =>
    intro test b k n cb m c n' ihb ih
    simp [parts, Stmt.parts, ihb, ih, Cond.cells_asmExit, Line.cells, Instr.cells]

-- Code works on the cells of the names that are set or read.
theorem mem_cells_iff (h : p.asmCode = .ok code) (x : String) :
    x ∈ code.cells ↔ p.Sets x ∨ p.Gets x := by
  obtain ⟨c, n, hc, rfl⟩ := exists_asm_of_asmCode h
  rw [Code.cells_whole, cells_asm hc, ← mem_names_declarationsAndAssignments, mem_names_iff, Gets,
    List.mem_flatMap]
  simp only [Stmt.operands, List.mem_append, Option.mem_toList]
  exact ⟨fun ⟨s, hs, hx⟩ => hx.symm.imp (⟨s, hs, ·⟩) (⟨s, hs, ·⟩),
    fun hx => hx.elim (fun ⟨s, hs, hx⟩ => ⟨s, hs, .inr hx⟩) fun ⟨s, hs, hx⟩ => ⟨s, hs, .inl hx⟩⟩

-- There is one line for the cell of each name that is set, and none for any other name.
theorem count_data (h : p.asmCode = .ok code) (x : String) :
    (p.Sets x → code.data.count ("var_" ++ x ++ ": DB 0") = 1) ∧
      (¬p.Sets x → code.data.count ("var_" ++ x ++ ": DB 0") = 0) := by
  obtain ⟨c, n, -, rfl⟩ := exists_asm_of_asmCode h
  have hcount : (Code.whole (p.names .declarationsAndAssignments) c).data.count
      ("var_" ++ x ++ ": DB 0") = _ := Code.count_data_whole nodup_names c x
  rw [hcount, ← mem_names_declarationsAndAssignments]
  exact ⟨fun hx => if_pos hx, fun hx => if_neg hx⟩

-- Assembly code works on the cells of the names that its program sets or reads. The data section
-- has one line for the cell of each name that is set, and none for any other. So all cells are
-- there if and only if no name is read that is not set as well.
theorem asm_cells (h : p.asmCode = .ok code) : p.asmText = .ok code.text ∧
    (∀ x, x ∈ code.cells ↔ p.Sets x ∨ p.Gets x) ∧
    (∀ x, p.Sets x → code.data.count ("var_" ++ x ++ ": DB 0") = 1) ∧
    (∀ x, ¬p.Sets x → code.data.count ("var_" ++ x ++ ": DB 0") = 0) ∧
    ((∀ x ∈ code.cells, code.data.count ("var_" ++ x ++ ": DB 0") = 1) ↔
      ∀ x, p.Gets x → p.Sets x) := by
  refine ⟨by simp only [asmText, h]; rfl, mem_cells_iff h, fun x => (count_data h x).1,
    fun x => (count_data h x).2, ?_⟩
  constructor
  case mp =>
    intro hcells x hx
    by_contra hset
    have hone := hcells x ((mem_cells_iff h x).mpr (.inr hx))
    rw [(count_data h x).2 hset] at hone
    cases hone
  case mpr =>
    intro hreads x hx
    exact (count_data h x).1 (((mem_cells_iff h x).mp hx).elim id (hreads x))

-- A drained from an undeclared name.
def drained : Program :=
  [.assign "y" (.num 2),
    .loop ⟨.gt, .var "y", .num 0⟩ [.assign "y" (.bin .sub (.var "y") (.num 1))]]

theorem drained_cells : ∃ code, drained.asmCode = .ok code ∧ "y" ∈ code.cells ∧
    ∀ x ∈ code.cells, code.data.count ("var_" ++ x ++ ": DB 0") = 1 := by
  have ⟨code, hcode⟩ : ∃ code, drained.asmCode = .ok code := ⟨_, rfl⟩
  have hset : drained.Sets "y" := ⟨.num 2, .inr (by decide)⟩
  have ⟨_, hmem, _, _, hall⟩ := asm_cells hcode
  refine ⟨code, hcode, (hmem "y").mpr (.inl hset), hall.mpr ?_⟩
  rintro x ⟨s, hs, hx⟩
  have hreads : ∀ s ∈ drained.parts, ∀ x ∈ s.reads, x = "y" := by decide
  exact hreads s hs x hx ▸ hset

-- A loop that is never entered, and reads a name that nothing sets.
def unset : Program :=
  [.declare "y" (.num 0), .loop ⟨.gt, .var "y", .num 0⟩ [.assign "y" (.var "x")]]

theorem parse_unset :
    Dialect.loop.parse "var y = 0; while (y > 0) { y = x; }" = .ok unset :=
  eq_ok_of_toOption (by decide +kernel)

theorem unset_cells : ¬∀ source p code, Dialect.loop.parse source = .ok p → p.asmCode = .ok code →
    ∀ x ∈ code.cells, code.data.count ("var_" ++ x ++ ": DB 0") = 1 := by
  intro h
  have ⟨code, hcode⟩ : ∃ code, unset.asmCode = .ok code := ⟨_, rfl⟩
  have hreads : unset.Gets "x" := ⟨.assign "y" (.var "x"), by decide, by decide⟩
  have hset : ¬unset.Sets "x" := by rw [← mem_names_declarationsAndAssignments]; decide
  have hone := h _ _ _ parse_unset hcode "x" ((mem_cells_iff hcode "x").mpr (.inr hreads))
  rw [(count_data hcode "x").2 hset] at hone
  cases hone

end Program

end Imp
