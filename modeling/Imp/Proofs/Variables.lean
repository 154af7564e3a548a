import Imp.Program.Variables
import Imp.Proofs.Names
import Mathlib.Data.List.Induction

/-!
The variables that are collected from a program. Each name that a statement introduces is listed
once and found in the set, and no other name is. The names stand in the order of the statements that
are the first to introduce them.
-/

namespace Imp

theorem eraseDups_concat (xs : List String) (x : String) :
    (xs ++ [x]).eraseDups = if x ∈ xs then xs.eraseDups else xs.eraseDups ++ [x] := by
  rw [List.eraseDups_append]
  by_cases hx : x ∈ xs <;> simp [List.cons_removeAll, List.eraseDups_cons, hx]

section First

variable {α : Type} {f : α → Option String} {xs : List α} {x : String}

theorem findIdx_lt_of_mem_filterMap (h : x ∈ xs.filterMap f) :
    xs.findIdx (f · = some x) < xs.length := by
  obtain ⟨a, ha, hx⟩ := List.mem_filterMap.mp h
  exact List.findIdx_lt_length.mpr ⟨a, ha, decide_eq_true hx⟩

theorem findIdx_eq_of_not_mem_filterMap (h : x ∉ xs.filterMap f) :
    xs.findIdx (f · = some x) = xs.length :=
  List.findIdx_eq_length.mpr fun a ha =>
    decide_eq_false fun hx => h (List.mem_filterMap.mpr ⟨a, ha, hx⟩)

-- Without its repetitions, a list is in the order in which its elements appear first.
theorem pairwise_eraseDups_filterMap (f : α → Option String) (xs : List α) :
    (xs.filterMap f).eraseDups.Pairwise fun x y =>
      xs.findIdx (f · = some x) < xs.findIdx (f · = some y) := by
  induction xs using List.reverseRecOn with
  | nil => simp
  | append_singleton xs a ih =>
    have hkept : ∀ {x}, x ∈ xs.filterMap f →
        (xs ++ [a]).findIdx (f · = some x) = xs.findIdx (f · = some x) := fun hx =>
      List.findIdx_append.trans (if_pos (findIdx_lt_of_mem_filterMap hx))
    have ih : (xs.filterMap f).eraseDups.Pairwise fun x y =>
        (xs ++ [a]).findIdx (f · = some x) < (xs ++ [a]).findIdx (f · = some y) := by
      refine ih.imp_of_mem fun hx hy hlt => ?_
      rwa [hkept (List.mem_eraseDups.mp hx), hkept (List.mem_eraseDups.mp hy)]
    cases ha : f a with
    | none => simpa [ha] using ih
    | some z =>
      have happend : (xs ++ [a]).filterMap f = xs.filterMap f ++ [z] := by simp [ha]
      rw [happend, eraseDups_concat]
      split
      case isTrue => exact ih
      case isFalse hz =>
        -- the new name is the last one, and it appears behind all others
        refine List.pairwise_append.mpr ⟨ih, List.pairwise_singleton .., fun x hx y hy => ?_⟩
        have hx := List.mem_eraseDups.mp hx
        obtain rfl := List.mem_singleton.mp hy
        rw [hkept hx, List.findIdx_append, findIdx_eq_of_not_mem_filterMap hz, if_neg (by omega)]
        have := findIdx_lt_of_mem_filterMap hx
        omega

end First

namespace Variables

theorem names_insert (v : Variables) (x : String) :
    (v.insert x).names = if x ∈ v.names then v.names else v.names ++ [x] := by
  simp only [insert, v.seen_iff]
  split <;> rfl

theorem names_foldl_insert (xs : List String) : (xs.foldl insert empty).names = xs.eraseDups := by
  induction xs using List.reverseRecOn with
  | nil => simp [empty]
  | append_singleton xs x ih => simp [eraseDups_concat, names_insert, ih]

end Variables

namespace Program

-- The place of the first statement that introduces a name, among all statements in the order of the
-- text.
def firstIntroduction (mode : Introduces) (p : Program) (x : String) : Nat :=
  p.parts.findIdx fun s => s.introduces? mode = some x

-- The walk through a program inserts the names in the order in which they are introduced.
theorem collect_eq (mode : Introduces) (p : Program) (v : Variables) :
    p.collect mode v = (p.introduced mode).foldl Variables.insert v := by
  induction p using Program.induction generalizing v with
  | nil => rfl
  | declare x e k ih => simp [collect, Stmt.collect, introduced, Stmt.introduced, ih]
  | assign x e k ih =>
    cases mode <;> simp [collect, Stmt.collect, introduced, Stmt.introduced, ih]
  | loop c b k ihb ih => simp [collect, Stmt.collect, introduced, Stmt.introduced, ihb, ih]
  | branch c t k iht ih => simp [collect, Stmt.collect, introduced, Stmt.introduced, iht, ih]
  | branchElse c t f k iht ihf ih =>
    simp [collect, Stmt.collect, introduced, Stmt.introduced, iht, ihf, ih]

theorem names_vars (mode : Introduces) (p : Program) :
    (p.vars mode).names = p.names mode := by
  rw [vars, collect_eq, Variables.names_foldl_insert]
  rfl

theorem pairwise_names (mode : Introduces) (p : Program) : (p.names mode).Pairwise fun x y =>
    p.firstIntroduction mode x < p.firstIntroduction mode y := by
  rw [names, introduced_eq]
  exact pairwise_eraseDups_filterMap _ _

theorem names_declarations_subset (p : Program) :
    p.names .declarations ⊆ p.names .declarationsAndAssignments := by
  intro x hx
  have ⟨e, he⟩ := mem_names_declarations.mp hx
  exact mem_names_declarationsAndAssignments.mpr ⟨e, .inl he⟩

-- The variables of a program are the names that its statements introduce, at any depth. Each of them
-- is listed once and found, in the order of the statements that introduce them first. What is
-- declared is also among the names that are declared or assigned to.
theorem vars_in_order (p : Program) (mode : Introduces) :
    (p.vars mode).names.Nodup ∧
    (∀ x, (p.vars mode).contains x = true ↔ x ∈ (p.vars mode).names) ∧
    (∀ x, x ∈ (p.vars mode).names ↔ ∃ s ∈ p.parts, s.introduces? mode = some x) ∧
    ((p.vars mode).names.Pairwise fun x y =>
      p.firstIntroduction mode x < p.firstIntroduction mode y) ∧
    (p.vars .declarations).names ⊆ (p.vars .declarationsAndAssignments).names := by
  refine ⟨(p.vars mode).nodup, (p.vars mode).seen_iff, fun x => ?_, ?_, ?_⟩
  case refine_1 => rw [names_vars, mem_names_iff]
  case refine_2 => exact names_vars mode p ▸ pairwise_names mode p
  case refine_3 =>
    rw [names_vars, names_vars]
    exact names_declarations_subset p

-- The two modes may list the same names in different orders.
example :
    let p : Program := [.assign "x" (.num 1), .declare "y" (.num 2), .declare "x" (.num 3)]
    (p.vars .declarations).names = ["y", "x"] ∧
      (p.vars .declarationsAndAssignments).names = ["x", "y"] := by
  decide

end Program

end Imp
