import Imp.Proofs.Asm.Layout
import Imp.Proofs.Digits
import Imp.Proofs.Names

/-!
The labels and cells of assembly text go by different names, and no jump goes astray.

A numbered label ends in its number behind an underscore, so that labels with different numbers
differ whatever the names in them. Cells and labels differ in their first character.
-/

namespace Imp

namespace Asm

-- What a line gives a name to: itself or a cell.
def Line.defined? : Line → Option String
  | label l => some l.text
  | cell x => some (cellName x)
  | _ => none

def Code.defined (code : Code) : List String :=
  code.filterMap Line.defined?

theorem toDigits_eq_of_append {u v : List Char} {n m : Nat}
    (h : u ++ '_' :: Nat.toDigits 10 n = v ++ '_' :: Nat.toDigits 10 m) : n = m := by
  have digits : ∀ w n, (w ++ '_' :: Nat.toDigits 10 n).reverse.takeWhile Char.isDigit =
      (Nat.toDigits 10 n).reverse := by
    intro w n
    rw [List.reverse_append, List.reverse_cons, List.append_assoc]
    exact (takeWhile_append_eq (by simpa using isDigit_of_mem_toDigits) (by simp)).1
  have hdigits := congrArg (fun w => w.reverse.takeWhile Char.isDigit) h
  simp only [digits, List.reverse_inj] at hdigits
  rw [← Nat.ofDigitChars_ten_toDigits (n := n), hdigits, Nat.ofDigitChars_ten_toDigits]

theorem cellName_injective : Function.Injective cellName := fun x y h => by
  have := congrArg String.toList h
  simpa [cellName, String.toList_inj] using this

namespace Label

-- The first character of a label.
def initial : Label → Char
  | start => 's'
  | loopStart _ | loopEnd _ => 'w'
  | decremented .. => 'd'

theorem head?_text (l : Label) : l.text.toList.head? = some l.initial := by
  cases l <;> simp [text, initial]

theorem text_ne_cellName (l : Label) (x : String) : l.text ≠ cellName x := by
  intro h
  have hhead := l.head?_text
  rw [h] at hhead
  cases l <;> simp [cellName, initial] at hhead

theorem exists_toList_text {l : Label} (h : l ≠ start) :
    ∃ u, l.text.toList = u ++ '_' :: Nat.toDigits 10 l.number := by
  cases l with
  | start => exact absurd rfl h
  | loopStart n => exact ⟨"while_start".toList, by simp [text, number]⟩
  | loopEnd n => exact ⟨"while_end".toList, by simp [text, number]⟩
  | decremented x n => exact ⟨"dec_done_".toList ++ x.toList, by simp [text, number]⟩

theorem eq_start_iff (l : Label) : l = start ↔ l.initial = 's' := by
  cases l <;> simp [initial]

theorem number_eq_of_text_eq {l l' : Label} (h : l.text = l'.text) : l.number = l'.number := by
  have hinitial : l.initial = l'.initial := by
    have hhead := l.head?_text
    rw [h, head?_text] at hhead
    exact (Option.some.inj hhead).symm
  by_cases hl : l = start
  case pos =>
    have hl' : l' = start := by rw [eq_start_iff, ← hinitial, ← eq_start_iff]; exact hl
    rw [hl, hl']
  case neg =>
    have hl' : l' ≠ start := by rw [Ne, eq_start_iff, ← hinitial, ← eq_start_iff]; exact hl
    have ⟨u, hu⟩ := exists_toList_text hl
    have ⟨v, hv⟩ := exists_toList_text hl'
    exact toDigits_eq_of_append (hu.symm.trans ((congrArg String.toList h).trans hv))

end Label

namespace Code

@[simp]
theorem defined_append (c d : Code) : defined (c ++ d) = defined c ++ defined d :=
  List.filterMap_append

@[simp]
theorem defined_nil : defined [] = [] := rfl

@[simp]
theorem defined_cons (l : Line) (c : Code) : defined (l :: c) = l.defined?.toList ++ defined c := by
  cases h : l.defined? <;> simp [defined, h]

theorem mem_defined_iff {code : Code} {w : String} :
    w ∈ code.defined ↔ (∃ l, .label l ∈ code ∧ w = l.text) ∨ ∃ x, .cell x ∈ code ∧ w = cellName x := by
  simp only [defined, List.mem_filterMap]
  constructor
  case mp =>
    rintro ⟨l, hl, hw⟩
    cases l with
    | label l => exact .inl ⟨l, hl, (Option.some.inj hw).symm⟩
    | cell x => exact .inr ⟨x, hl, (Option.some.inj hw).symm⟩
    | instr | note | blank => nomatch hw
  case mpr =>
    rintro (⟨l, hl, rfl⟩ | ⟨x, hx, rfl⟩)
    case inl => exact ⟨_, hl, rfl⟩
    case inr => exact ⟨_, hx, rfl⟩

-- Labels numbered apart are named apart.
theorem nodup_defined {code : Code} (hn : code.numbers.Nodup) (hc : ∀ x, .cell x ∉ code) :
    code.defined.Nodup := by
  refine List.pairwise_filterMap.mpr ((List.pairwise_filterMap.mp hn).imp_of_mem ?_)
  intro l l' hl hl' hne w hw w' hw' heq
  cases l with
  | instr | note | blank => nomatch hw
  | cell x => exact hc x hl
  | label a =>
    cases l' with
    | instr | note | blank => nomatch hw'
    | cell x => exact hc x hl'
    | label b =>
      cases hw
      cases hw'
      exact hne _ rfl _ rfl (Label.number_eq_of_text_eq heq)

end Code

end Asm

open Asm

@[simp]
theorem Expr.jump_not_mem_asm (e : Expr) (j : Jump) (l : Label) : .instr (.jump j l) ∉ e.asm := by
  induction e with
  | num | var => simp [asm]
  | bin op l r ihl ihr => cases op <;> simp [asm, arith, ihl, ihr]

@[simp]
theorem Expr.label_not_mem_asm (e : Expr) (l : Label) : .label l ∉ e.asm := by
  induction e with
  | num | var => simp [asm]
  | bin op l r ihl ihr => cases op <;> simp [asm, arith, ihl, ihr]

namespace Program

variable {p : Program} {n n' : Nat} {c : Code}

theorem label_mem_asm_of_jump (h : p.asm n = .ok (c, n')) {j : Jump} {l : Label} :
    .instr (.jump j l) ∈ c → .label l ∈ c := by
  have store : ∀ {x : String} {e : Expr} {c : Code}, (.instr (.jump j l) ∈ c → .label l ∈ c) →
      .instr (.jump j l) ∈ e.asm ++ [.instr (.store x .a)] ++ c →
      .label l ∈ e.asm ++ [.instr (.store x .a)] ++ c := by
    intro x e c ih hj
    simp only [List.mem_append, Expr.jump_not_mem_asm, List.mem_singleton, reduceCtorEq,
      Line.instr.injEq, or_self, false_or] at hj
    exact List.mem_append_right _ (ih hj)
  refine asm_induction (P := fun _ _ c _ => .instr (.jump j l) ∈ c → .label l ∈ c)
    ?_ store (fun _ => store) ?_ ?_ h
  case refine_1 => simp
  case refine_2 =>
    intro x k n c n' ih hj
    simp only [decrement, List.cons_append, List.nil_append, List.mem_cons, reduceCtorEq,
      Line.instr.injEq, Instr.jump.injEq, Line.label.injEq, false_or] at hj ⊢
    exact hj.imp And.right ih
  case refine_3 =>
    intro test b k n cb m c n' ihb ih hj
    simp only [Cond.asmExit, List.mem_append, List.mem_cons, Expr.jump_not_mem_asm,
      Expr.label_not_mem_asm, reduceCtorEq, Line.instr.injEq, Instr.jump.injEq, Line.label.injEq,
      List.not_mem_nil, or_false, false_or] at hj ⊢
    obtain ((⟨-, rfl⟩ | hj) | ⟨-, rfl⟩) | hj := hj
    case inl.inl.inl => exact .inl (.inr rfl)
    case inl.inl.inr => exact .inl (.inl (.inr (ihb hj)))
    case inl.inr => exact .inl (.inl (.inl rfl))
    case inr => exact .inr (ih hj)

theorem nodup_defined_whole (h : p.asm 0 = .ok (c, n)) {names : List String} (hn : names.Nodup) :
    (Code.whole names c).defined.Nodup := by
  have hcells : Code.defined (names.map .cell) = names.map cellName := by
    simp [Code.defined, List.filterMap_map, Line.defined?, Function.comp_def]
  have hcode : (Code.defined (.label .start :: c)).Nodup := by
    refine Code.nodup_defined ?_ fun x hx => ?_
    case refine_1 =>
      have hnumbers := nodup_numbers_whole h []
      simpa [Code.whole, Line.number?] using hnumbers
    case refine_2 => exact cell_not_mem_asm h x (List.mem_of_ne_of_mem (by simp) hx)
  have hwhole : (Code.whole names c).defined =
      names.map cellName ++ Code.defined (.label .start :: c) := by
    simp [Code.whole, hcells, Line.defined?]
  rw [hwhole, List.nodup_append]
  refine ⟨hn.map cellName_injective, hcode, fun w hw w' hw' heq => ?_⟩
  obtain ⟨x, _, rfl⟩ := List.mem_map.mp hw
  obtain ⟨l, _, rfl⟩ | ⟨y, hy, _⟩ := Code.mem_defined_iff.mp hw'
  case inl => exact l.text_ne_cellName x heq.symm
  case inr => exact cell_not_mem_asm h y (List.mem_of_ne_of_mem (by simp) hy)

theorem label_mem_whole_of_jump (h : p.asm 0 = .ok (c, n)) {names : List String} {j : Jump}
    {l : Label} (hj : .instr (.jump j l) ∈ Code.whole names c) : .label l ∈ Code.whole names c := by
  simp only [Code.whole, List.mem_append, List.mem_cons, List.mem_map, reduceCtorEq, and_false,
    exists_false, Line.instr.injEq, Instr.jump.injEq, Line.label.injEq, List.not_mem_nil, or_false,
    false_or] at hj ⊢
  obtain ⟨-, rfl⟩ | hj := hj
  case inl => exact .inl rfl
  case inr => exact .inr (label_mem_asm_of_jump h hj)

end Program

end Imp
