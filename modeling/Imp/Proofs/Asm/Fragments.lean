import Imp.Proofs.Asm.Layout

/-!
Where the code of a program lowers anything: in the code of saturating decrements only, if the
program subtracts nothing else.
-/

namespace Imp

open Asm

namespace Asm

-- Lines that neither lower a value nor belong to the code of a decrement by a jump.
def Line.Plain : Line → Prop
  | .instr (.load _ (.const v)) => 0 ≤ v
  | .instr (.sub ..) | .instr (.dec _) | .instr (.jump _ (.decremented ..)) => False
  | _ => True

-- All lines are plain but those of saturating decrements.
def Code.Saturating (code : Code) : Prop :=
  ∀ pc l, code[pc]? = some l → l.Plain ∨
    ∃ first k x n, pc = first + k ∧ (decrement x n)[k]? = some l ∧ code.At first (decrement x n)

namespace Code.Saturating

variable {code c d : Code} {pc n : Nat} {x : String} {r : Register} {j : Jump}

theorem of_plain (h : ∀ l ∈ c, l.Plain) : c.Saturating :=
  fun _ l hl => .inl (h l (List.mem_of_getElem? hl))

theorem decrement (x : String) (n : Nat) : (Asm.decrement x n).Saturating :=
  fun pc _ hl => .inr ⟨0, pc, x, n, (Nat.zero_add pc).symm, hl, List.prefix_rfl⟩

theorem append (hc : c.Saturating) (hd : d.Saturating) : Code.Saturating (c ++ d) := by
  intro pc l hl
  by_cases hlt : pc < c.length
  case pos =>
    rw [List.getElem?_append_left hlt] at hl
    refine (hc pc l hl).imp_right ?_
    rintro ⟨first, k, x, n, rfl, hk, hat⟩
    exact ⟨first, k, x, n, rfl, hk, hat.append_right d⟩
  case neg =>
    rw [List.getElem?_append_right (by omega)] at hl
    refine (hd _ l hl).imp_right ?_
    rintro ⟨first, k, x, n, hpc, hk, hat⟩
    exact ⟨c.length + first, k, x, n, by omega, hk, hat.append_left c⟩

theorem jump (h : code.Saturating) (hl : code[pc]? = some (.instr (.jump j (.decremented x n)))) :
    ∃ first, pc = first + 3 ∧ code.At first (Asm.decrement x n) := by
  have ⟨first, k, y, m, hpc, hk, hat⟩ := (h pc _ hl).resolve_left id
  have : k = 3 ∧ y = x ∧ m = n := by grind [Asm.decrement]
  obtain ⟨rfl, rfl, rfl⟩ := this
  exact ⟨first, hpc, hat⟩

theorem dec (h : code.Saturating) (hl : code[pc]? = some (.instr (.dec r))) :
    ∃ first x n, r = .a ∧ pc = first + 4 ∧ code.At first (Asm.decrement x n) := by
  have ⟨first, k, y, m, hpc, hk, hat⟩ := (h pc _ hl).resolve_left id
  have : k = 4 ∧ r = .a := by grind [Asm.decrement]
  obtain ⟨rfl, rfl⟩ := this
  exact ⟨first, y, m, rfl, hpc, hat⟩

-- Nothing else is subtracted and no negative literal is loaded.
theorem not_sub (h : code.Saturating) {s : Register} : .instr (.sub r s) ∉ code := by
  intro hl
  have ⟨pc, hl⟩ := List.mem_iff_getElem?.mp hl
  have ⟨first, k, y, m, hpc, hk, hat⟩ := (h pc _ hl).resolve_left id
  have := List.mem_of_getElem? hk
  simp [Asm.decrement] at this

theorem load_nonneg (h : code.Saturating) {v : Int32} (hl : .instr (.load r (.const v)) ∈ code) :
    0 ≤ v := by
  have ⟨pc, hl⟩ := List.mem_iff_getElem?.mp hl
  obtain hv | ⟨first, k, y, m, hpc, hk, hat⟩ := h pc _ hl
  case inl => exact hv
  case inr =>
    have := List.mem_of_getElem? hk
    simp [Asm.decrement] at this

end Code.Saturating

end Asm

-- Sums and products of variables and of literals that are not negative.
def Expr.Rising : Expr → Prop
  | num v => 0 ≤ v
  | var _ => True
  | bin op l r => op ≠ .sub ∧ l.Rising ∧ r.Rising

-- Nothing is subtracted but one from a variable that the difference is assigned to.
def Stmt.Saturating : Stmt → Prop
  | .assign x e => e = .bin .sub (.var x) (.num 1) ∨ e.Rising
  | s => ∀ e ∈ s.exprs, e.Rising

-- Lines that make up the code of expressions without subtraction.
theorem Expr.Rising.plain {e : Expr} (h : e.Rising) : ∀ l ∈ e.asm, l.Plain := by
  induction e with
  | num v => simpa [asm, Line.Plain, Rising] using h
  | var x => simp [asm, Line.Plain]
  | bin op l r hl hr =>
    obtain ⟨hop, hleft, hright⟩ := h
    have harith : ∀ l ∈ arith op, l.Plain := by
      cases op with
      | sub => exact absurd rfl hop
      | add | mul => simp [arith, Line.Plain]
    simp only [asm, List.mem_append, List.mem_cons]
    rintro l ((hl' | rfl | hr') | rfl | ho)
    case inl.inl => exact hl hleft l hl'
    case inl.inr.inr => exact hr hright l hr'
    case inr.inr => exact harith l ho
    all_goals trivial

theorem Cond.asmExit_plain {test : Cond} {n : Nat} (hleft : test.left.Rising)
    (hright : test.right.Rising) : ∀ l ∈ test.asmExit (.loopEnd n), l.Plain := by
  simp only [asmExit, List.mem_append, List.mem_cons, List.not_mem_nil, or_false]
  rintro l ((hl | rfl | hr) | rfl | rfl)
  case inl.inl => exact hleft.plain l hl
  case inl.inr.inr => exact hright.plain l hr
  all_goals trivial

@[simp]
theorem Expr.store_not_mem_asm (e : Expr) (x : String) (r : Register) :
    .instr (.store x r) ∉ e.asm := by
  induction e with
  | num | var => simp [asm]
  | bin op l r ihl ihr => cases op <;> simp [asm, arith, ihl, ihr]

namespace Program

variable {p : Program} {c : Code} {n n' : Nat}

theorem asm_saturating (h : p.asm n = .ok (c, n')) (hp : ∀ s ∈ p.parts, s.Saturating) :
    c.Saturating := by
  revert hp
  have store : ∀ {x : String} {e : Expr} {c}, e.Rising → Code.Saturating c →
      Code.Saturating (e.asm ++ [.instr (.store x .a)] ++ c) := by
    intro x e c he hc
    refine .append (.append (.of_plain he.plain) (.of_plain ?_)) hc
    simp [Line.Plain]
  refine asm_induction (P := fun p _ c _ => (∀ s ∈ p.parts, s.Saturating) → c.Saturating)
    ?_ ?_ ?_ ?_ ?_ h
  case refine_1 => exact fun _ _ => .of_plain (by simp)
  case refine_2 =>
    intro x e k n c n' ih hp
    simp only [parts, Stmt.parts, List.cons_append, List.nil_append, List.forall_mem_cons] at hp
    exact store (hp.1 e (by simp [Stmt.exprs])) (ih hp.2)
  case refine_3 =>
    intro x e k n c n' hne ih hp
    simp only [parts, Stmt.parts, List.cons_append, List.nil_append, List.forall_mem_cons] at hp
    exact store (hp.1.resolve_left hne) (ih hp.2)
  case refine_4 =>
    intro x k n c n' ih hp
    simp only [parts, Stmt.parts, List.cons_append, List.nil_append, List.forall_mem_cons] at hp
    exact .append (.decrement x (n + 1)) (ih hp.2)
  case refine_5 =>
    intro test b k n cb m c n' ihb ih hp
    simp only [parts, Stmt.parts, List.cons_append, List.forall_mem_cons, List.forall_mem_append]
      at hp
    obtain ⟨htest, hb, hk⟩ := hp
    have hexit := Cond.asmExit_plain (n := n + 2) (htest test.left (by simp [Stmt.exprs]))
      (htest test.right (by simp [Stmt.exprs]))
    refine .append (.append (.append (.of_plain ?_) (ihb hb)) (.of_plain ?_)) (ih hk)
    case refine_1 => exact List.forall_mem_cons.mpr ⟨trivial, hexit⟩
    case refine_2 => simp [Line.Plain]

-- What is stored to is introduced.
theorem mem_introduced_of_store (h : p.asm n = .ok (c, n')) {x : String} {r : Register}
    (hx : .instr (.store x r) ∈ c) : x ∈ p.introduced .declarationsAndAssignments := by
  revert hx
  refine asm_induction (P := fun p _ c _ =>
    .instr (.store x r) ∈ c → x ∈ p.introduced .declarationsAndAssignments) ?_ ?_ ?_ ?_ ?_ h
  case refine_1 => simp
  case refine_2 =>
    intro y e k n c n' ih hx
    simp [introduced, Stmt.introduced] at hx ⊢
    exact hx.imp And.left ih
  case refine_3 =>
    intro y e k n c n' _ ih hx
    simp [introduced, Stmt.introduced] at hx ⊢
    exact hx.imp And.left ih
  case refine_4 =>
    intro y k n c n' ih hx
    simp [introduced, Stmt.introduced, decrement] at hx ⊢
    exact hx.imp And.left ih
  case refine_5 =>
    intro test b k n cb m c n' ihb ih hx
    simp [introduced, Stmt.introduced, Cond.asmExit] at hx ⊢
    exact hx.imp ihb ih

theorem store_mem_whole {names : List String} {x : String} {r : Register} :
    .instr (.store x r) ∈ Code.whole names c ↔ .instr (.store x r) ∈ c := by
  simp [Code.whole]

-- Where one is subtracted from a variable, there is the code of a saturating decrement.
theorem exists_decrement (h : p.asm n = .ok (c, n')) {x : String}
    (hx : .assign x (.bin .sub (.var x) (.num 1)) ∈ p.parts) :
    ∃ first number, Code.At c first (decrement x number) := by
  obtain ⟨m, cs, m', first, hs, hat⟩ := laysOut _ p hx _ _ _ h
  rw [Stmt.asm, if_pos rfl] at hs
  cases hs
  exact ⟨first, m + 1, hat⟩

theorem whole_saturating (h : p.asm 0 = .ok (c, n)) (hp : ∀ s ∈ p.parts, s.Saturating)
    (names : List String) : (Code.whole names c).Saturating := by
  refine .append (.append (.of_plain ?_) (asm_saturating h hp)) (.of_plain ?_)
  case refine_1 =>
    simp only [List.mem_append, List.mem_cons, List.mem_map]
    rintro l ((rfl | ⟨x, _, rfl⟩) | rfl | rfl | hl)
    case inr.inr.inr => nomatch hl
    all_goals trivial
  case refine_2 => simp [Line.Plain]

end Program

end Imp
