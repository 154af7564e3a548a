import Imp.Asm.Compile
import Imp.Proofs.Asm.Machine
import Imp.Proofs.Except
import Imp.Proofs.Parts

/-!
Where code lies in a list of lines, and which lines its jumps lead to.
-/

namespace Imp

namespace Asm

-- The lines of `c` are those from line `pc` on.
def Code.At (code : Code) (pc : Nat) (c : Code) : Prop :=
  c <+: code.drop pc

namespace Code.At

variable {code c d : Code} {l : Line} {pc : Nat}

theorem head (h : code.At pc (l :: c)) : code[pc]? = some l := by
  have ⟨t, ht⟩ := h
  have : (code.drop pc)[0]? = some l := by simp [← ht]
  simpa [List.getElem?_drop] using this

theorem left (h : code.At pc (c ++ d)) : code.At pc c :=
  (List.prefix_append c d).trans h

theorem right (h : code.At pc (c ++ d)) : code.At (pc + c.length) d := by
  have ⟨t, ht⟩ := h
  exact ⟨t, by simp [← List.drop_drop, ← ht]⟩

theorem tail (h : code.At pc (l :: c)) : code.At (pc + 1) c :=
  right (c := [l]) h

theorem getElem? {k : Nat} (h : code.At pc d) (hk : k < d.length) : code[pc + k]? = d[k]? := by
  have ⟨t, ht⟩ := h
  rw [← List.getElem?_drop, ← ht, List.getElem?_append_left hk]

theorem append_right (h : code.At pc c) (d : Code) : At (code ++ d) pc c := by
  have ⟨t, ht⟩ := h
  exact ⟨t ++ d.drop (pc - code.length), by rw [List.drop_append, ← ht, List.append_assoc]⟩

theorem append_left (h : code.At pc c) (d : Code) : At (d ++ code) (d.length + pc) c := by
  rwa [At, List.drop_length_add_append]

theorem trans {k : Nat} (hc : code.At pc c) (hd : c.At k d) : code.At (pc + k) d := by
  have ⟨t, ht⟩ := hc
  have hd := hd.append_right t
  rwa [ht, At, List.drop_drop] at hd

theorem refl (code : Code) : code.At 0 code :=
  List.prefix_rfl

end Code.At

def Label.number : Label → Nat
  | start => 0
  | loopStart n | loopEnd n | decremented _ n => n

def Line.number? : Line → Option Nat
  | label l => some l.number
  | _ => none

-- The numbers of the labels, in the order of their lines.
def Code.numbers (code : Code) : List Nat :=
  code.filterMap Line.number?

@[simp]
theorem Code.numbers_nil : Code.numbers [] = [] :=
  rfl

@[simp]
theorem Code.numbers_append (c d : Code) : numbers (c ++ d) = numbers c ++ numbers d :=
  List.filterMap_append

@[simp]
theorem Code.numbers_cons (l : Line) (c : Code) :
    numbers (l :: c) = l.number?.toList ++ numbers c := by
  cases h : l.number? <;> simp [numbers, h]

theorem Code.target?_eq {code : Code} {l : Label} {pc : Nat} (hn : code.numbers.Nodup)
    (h : code[pc]? = some (.label l)) : code.target? l = some pc := by
  have ⟨hlt, hget⟩ := List.getElem?_eq_some_iff.mp h
  refine List.findIdx?_eq_some_iff_getElem.mpr ⟨hlt, by simp [hget], fun j hj heq => ?_⟩
  have hp := List.pairwise_iff_getElem.mp (List.pairwise_filterMap.mp hn) j pc (by omega) hlt hj
  have heq : code[j] = .label l := of_decide_eq_true heq
  exact hp l.number (by rw [heq]; rfl) l.number (by rw [hget]; rfl) rfl

-- Labels are numbered apart, with numbers above `n` and up to `n'`.
structure Numbered (n n' : Nat) (c : Code) : Prop where
  le : n ≤ n'
  nodup : c.numbers.Nodup
  bounds : ∀ k ∈ c.numbers, n < k ∧ k ≤ n'

namespace Numbered

theorem of_numbers_eq_nil {c : Code} (h : c.numbers = []) (n : Nat) : Numbered n n c where
  le := Nat.le_refl n
  nodup := by simp [h]
  bounds := by simp [h]

theorem append {n m n' : Nat} {c d : Code} (hc : Numbered n m c) (hd : Numbered m n' d) :
    Numbered n n' (c ++ d) where
  le := hc.le.trans hd.le
  nodup := by
    rw [Code.numbers_append]
    refine List.nodup_append.mpr ⟨hc.nodup, hd.nodup, fun a ha b hb => ?_⟩
    have := hc.bounds a ha
    have := hd.bounds b hb
    omega
  bounds k hk := by
    rw [Code.numbers_append] at hk
    cases List.mem_append.mp hk
    case inl hk => have := hc.bounds k hk; have := hd.le; omega
    case inr hk => have := hd.bounds k hk; have := hc.le; omega

end Numbered

end Asm

open Asm

@[simp]
theorem Expr.numbers_asm (e : Expr) : Code.numbers e.asm = [] := by
  induction e with
  | num | var => rfl
  | bin op l r ihl ihr => cases op <;> simp [asm, arith, ihl, ihr, Line.number?]

@[simp]
theorem Expr.cell_not_mem_asm (e : Expr) (x : String) : .cell x ∉ e.asm := by
  induction e with
  | num | var => simp [asm]
  | bin op l r ihl ihr => cases op <;> simp [asm, arith, ihl, ihr]

@[simp]
theorem Cond.numbers_asmExit (test : Cond) (exit : Label) :
    Code.numbers (test.asmExit exit) = [] := by
  simp [asmExit, Line.number?]

theorem Asm.Numbered.loop {n n' : Nat} {cb : Code} {test : Cond} (h : Numbered (n + 2) n' cb) :
    Numbered n n' (.label (.loopStart (n + 1)) :: test.asmExit (.loopEnd (n + 2)) ++ cb
      ++ [.instr (.jump .always (.loopStart (n + 1))), .label (.loopEnd (n + 2))]) := by
  have hn : Code.numbers (.label (.loopStart (n + 1)) :: test.asmExit (.loopEnd (n + 2)) ++ cb
      ++ [.instr (.jump .always (.loopStart (n + 1))), .label (.loopEnd (n + 2))]) =
      (n + 1) :: cb.numbers ++ [n + 2] := by
    simp [Line.number?, Label.number]
  have ⟨hle, hnodup, hbounds⟩ := h
  refine ⟨by omega, ?_, fun k hk => ?_⟩
  case refine_1 =>
    rw [hn]
    have : ∀ k ∈ cb.numbers, k ≠ n + 1 ∧ k ≠ n + 2 := fun k hk => by have := hbounds k hk; omega
    simp only [List.cons_append, List.nodup_cons, List.nodup_append]
    grind
  case refine_2 =>
    rw [hn] at hk
    grind

-- The code of the blocks of a statement lies in its code.
theorem Stmt.at_block {s : Stmt} {b : Program} {n n' : Nat} {c : Code} (h : s.asm n = .ok (c, n'))
    (hb : b ∈ s.blocks) : ∃ m cb m' first, b.asm m = .ok (cb, m') ∧ c.At first cb := by
  cases s with
  | declare | assign => simp [blocks] at hb
  | loop test b =>
    cases List.mem_singleton.mp hb
    simp only [asm, bind_eq_ok, pure_eq_ok, Prod.mk.injEq] at h
    obtain ⟨⟨cb, m⟩, hb, rfl, -⟩ := h
    exact ⟨_, cb, m, _, hb, .append_right (.append_left (.refl cb) _) _⟩
  | branch => simp [asm] at h

namespace Program

variable {n n' : Nat} {c : Code}

theorem asm_cons_eq_ok {s : Stmt} {p : Program} (h : asm n (s :: p) = .ok (c, n')) :
    ∃ cs m cp, s.asm n = .ok (cs, m) ∧ p.asm m = .ok (cp, n') ∧ c = cs ++ cp := by
  simp only [asm, bind_eq_ok, pure_eq_ok, Prod.mk.injEq] at h
  obtain ⟨⟨cs, m⟩, hs, ⟨cp, _⟩, hp, rfl, rfl⟩ := h
  exact ⟨cs, m, cp, hs, hp, rfl⟩

-- The code of a program, statement by statement.
theorem asm_induction {P : Program → Nat → Code → Nat → Prop} (nil : ∀ n, P [] n [] n)
    (declare : ∀ {x e k n c n'}, P k n c n' →
      P (.declare x e :: k) n (e.asm ++ [.instr (.store x .a)] ++ c) n')
    (assign : ∀ {x e k n c n'}, e ≠ .bin .sub (.var x) (.num 1) → P k n c n' →
      P (.assign x e :: k) n (e.asm ++ [.instr (.store x .a)] ++ c) n')
    (decrement : ∀ {x k n c n'}, P k (n + 1) c n' →
      P (.assign x (.bin .sub (.var x) (.num 1)) :: k) n (decrement x (n + 1) ++ c) n')
    (loop : ∀ {test b k n cb m c n'}, P b (n + 2) cb m → P k m c n' →
      P (.loop test b :: k) n (.label (.loopStart (n + 1)) :: test.asmExit (.loopEnd (n + 2)) ++ cb
        ++ [.instr (.jump .always (.loopStart (n + 1))), .label (.loopEnd (n + 2))] ++ c) n')
    {p : Program} (h : p.asm n = .ok (c, n')) : P p n c n' := by
  induction p using Program.induction generalizing n c n' with
  | nil =>
    cases h
    exact nil n
  | declare x e k ih =>
    obtain ⟨_, _, cp, hs, hp, rfl⟩ := asm_cons_eq_ok h
    cases hs
    exact declare (ih hp)
  | assign x e k ih =>
    obtain ⟨_, _, cp, hs, hp, rfl⟩ := asm_cons_eq_ok h
    simp only [Stmt.asm] at hs
    split at hs
    case isTrue he =>
      cases hs
      exact he ▸ decrement (ih hp)
    case isFalse he =>
      cases hs
      exact assign he (ih hp)
  | loop test b k ihb ih =>
    obtain ⟨_, _, cp, hs, hp, rfl⟩ := asm_cons_eq_ok h
    simp only [Stmt.asm, bind_eq_ok, pure_eq_ok, Prod.mk.injEq] at hs
    obtain ⟨⟨cb, m⟩, hb, rfl, rfl⟩ := hs
    exact loop (ihb hb) (ih hp)
  | branch test t k | branchElse test t f k =>
    obtain ⟨_, _, cp, hs, hp, rfl⟩ := asm_cons_eq_ok h
    simp [Stmt.asm] at hs

theorem exists_asm_cons {s : Stmt} {p : Program} (hs : ∃ r, s.asm n = .ok r)
    (hp : ∀ n, ∃ r, p.asm n = .ok r) : ∃ r, asm n (s :: p) = .ok r := by
  have ⟨(cs, m), hs⟩ := hs
  have ⟨(cp, n'), hp⟩ := hp m
  exact ⟨(cs ++ cp, n'), by simp only [asm, bind_eq_ok]; exact ⟨_, hs, _, hp, rfl⟩⟩

theorem exists_asm {p : Program} (h : p.Unconditional) (n : Nat) : ∃ r, p.asm n = .ok r := by
  induction p using Program.induction generalizing n with
  | nil => exact ⟨_, rfl⟩
  | declare x e k ih =>
    have ih := ih (h.of_subset (by simp [parts]))
    exact exists_asm_cons ⟨_, rfl⟩ ih
  | assign x e k ih =>
    have ih := ih (h.of_subset (by simp [parts]))
    refine exists_asm_cons ?_ ih
    simp only [Stmt.asm]
    split <;> exact ⟨_, rfl⟩
  | loop test b k ihb ih =>
    obtain ⟨r, hr⟩ := ihb (h.of_subset (by simp [parts, Stmt.parts])) (n + 2)
    have ih := ih (h.of_subset (by simp [parts]))
    refine exists_asm_cons ?_ ih
    simp only [Stmt.asm, bind_eq_ok]
    exact ⟨_, r, hr, rfl⟩
  | branch test t k => exact (h test t none (by simp [parts, Stmt.parts])).elim
  | branchElse test t f k => exact (h test t (some f) (by simp [parts, Stmt.parts])).elim

-- Where a program has code, that of a statement in it lies there.
def LaysOut (s : Stmt) (p : Program) : Prop :=
  s ∈ p.parts → ∀ n c n', p.asm n = .ok (c, n') →
    ∃ m cs m' first, s.asm m = .ok (cs, m') ∧ c.At first cs

theorem LaysOut.cons {s t : Stmt} {p : Program} (hb : ∀ b ∈ t.blocks, LaysOut s b)
    (hp : LaysOut s p) : LaysOut s (t :: p) := by
  intro hs n c n' h
  obtain ⟨ct, m, cp, ht, hcp, rfl⟩ := asm_cons_eq_ok h
  rw [parts, Stmt.parts_eq] at hs
  cases List.mem_append.mp hs with
  | inl hs =>
    cases List.mem_cons.mp hs with
    | inl hs => exact ⟨n, ct, m, 0, hs ▸ ht, (Code.At.refl ct).append_right cp⟩
    | inr hs =>
      obtain ⟨b, hmem, hs⟩ := List.mem_flatMap.mp hs
      obtain ⟨_, cb, _, first, hcb, hat⟩ := Stmt.at_block ht hmem
      obtain ⟨m, cs, m', k, hcs, hk⟩ := hb b hmem hs _ _ _ hcb
      exact ⟨m, cs, m', _, hcs, (hat.trans hk).append_right cp⟩
  | inr hs =>
    obtain ⟨m, cs, m', first, hcs, hat⟩ := hp hs _ _ _ hcp
    exact ⟨m, cs, m', _, hcs, hat.append_left ct⟩

theorem laysOut (s : Stmt) (p : Program) : LaysOut s p := by
  induction p using Program.induction with
  | nil => simp [LaysOut, parts]
  | declare x e k ih | assign x e k ih => exact .cons (by simp [Stmt.blocks]) ih
  | loop test b k ihb ih => exact .cons (by simpa [Stmt.blocks] using ihb) ih
  | branch test t k iht ih => exact .cons (by simpa [Stmt.blocks] using iht) ih
  | branchElse test t f k iht ihf ih => exact .cons (by simp [Stmt.blocks, iht, ihf]) ih

theorem asm_numbered {p : Program} (h : p.asm n = .ok (c, n')) : Numbered n n' c := by
  have store : ∀ {x : String} {e : Expr} {c n n'}, Numbered n n' c →
      Numbered n n' (e.asm ++ [.instr (.store x .a)] ++ c) := fun ih =>
    .append (.of_numbers_eq_nil (by simp [Line.number?]) _) ih
  refine asm_induction (P := fun _ n c n' => Numbered n n' c) ?_ store (fun _ => store) ?_ ?_ h
  case refine_1 => exact .of_numbers_eq_nil rfl
  case refine_2 =>
    intro x k n c n' ih
    have hd : (Asm.decrement x (n + 1)).numbers = [n + 1] := rfl
    exact .append ⟨by omega, by simp [hd], by simp [hd]⟩ ih
  case refine_3 => exact fun ihb ih => .append (.loop ihb) ih

theorem cell_not_mem_asm {p : Program} (h : p.asm n = .ok (c, n')) (x : String) : .cell x ∉ c := by
  refine asm_induction (P := fun _ _ c _ => .cell x ∉ c) ?_ ?_ ?_ ?_ ?_ h
  case refine_1 => simp
  case refine_2 => exact fun ih => by simp [ih]
  case refine_3 => exact fun _ ih => by simp [ih]
  case refine_4 => exact fun ih => by simp [Asm.decrement, ih]
  case refine_5 => exact fun ihb ih => by simp [Cond.asmExit, ihb, ih]

end Program

-- Code of statements as a whole program, with cells of names.
def Asm.Code.whole (names : List String) (c : Code) : Code :=
  .instr (.jump .always .start) :: names.map .cell ++ [.blank, .label .start] ++ c ++ [.instr .halt]

theorem Asm.Code.whole_at (names : List String) (c : Code) :
    (whole names c).At (names.length + 2) (.label .start :: (c ++ [.instr .halt])) := by
  have h : whole names c = (.instr (.jump .always .start) :: names.map .cell ++ [.blank]) ++
      .label .start :: (c ++ [.instr .halt]) := by simp [whole]
  rw [At, h, List.drop_left' (by simp)]

namespace Program

variable {p : Program} {n : Nat} {c : Code}

theorem asmCode_eq (h : p.asm 0 = .ok (c, n)) :
    p.asmCode = .ok (.whole (p.names .declarationsAndAssignments) c) := by
  simp only [asmCode, bind_eq_ok, pure_eq_ok]
  exact ⟨_, h, rfl⟩

theorem asmText_eq (h : p.asm 0 = .ok (c, n)) :
    p.asmText = .ok (Code.whole (p.names .declarationsAndAssignments) c).text := by
  simp only [asmText, asmCode_eq h]
  rfl

theorem nodup_numbers_whole (h : p.asm 0 = .ok (c, n)) (names : List String) :
    (Code.whole names c).numbers.Nodup := by
  have hc := asm_numbered h
  have hcells : Code.numbers (names.map .cell) = [] := by
    simp [Code.numbers, List.filterMap_map, Line.number?, Function.comp_def]
  have h0 : 0 ∉ c.numbers := fun h0 => by have := hc.bounds 0 h0; omega
  simp [Code.whole, hcells, Line.number?, Label.number, h0, hc.nodup]

theorem cell_mem_whole (h : p.asm 0 = .ok (c, n)) {names : List String} {x : String} :
    .cell x ∈ Code.whole names c ↔ x ∈ names := by
  simp [Code.whole, cell_not_mem_asm h]

end Program

end Imp
