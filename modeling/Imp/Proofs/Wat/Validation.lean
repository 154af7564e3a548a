import Imp.Proofs.Names
import Imp.Proofs.Wat.Layout
import Imp.Proofs.Wat.Readback

/-!
The WebAssembly text of a program validates: it reads as a function whose locals and labels are each
declared once and whose code has the types that the function says. Inside of that code stands the
code of each statement, which leaves the stack as it finds it, and of each test, which leaves one
integer.
-/

namespace Imp

namespace Wat

-- What the validation of a module asks for in its function.
structure Function.Valid (f : Function) : Prop where
  locals : f.locals.Nodup
  labels : f.body.labels.Nodup
  body : f.body.Typed f.locals [] [] f.results

-- Options that leave a text legible: white space in front of its lines, and plain names.
structure Options.Legible (o : Options) : Prop where
  indent : ∀ c ∈ o.indent.toList, c.isWhitespace
  function : IsPlain o.function
  exported : ∀ e ∈ o.exported, IsPlain e

def Label.number : Label → Nat
  | exit n | loop n => n

-- Labels are numbered one after the other behind `n` and up to `n'`, in the order of their text.
def Code.Numbered (n n' : Nat) (c : Code) : Prop :=
  ∃ k, n' = n + k ∧ c.labels.map Label.number = List.range' (n + 1) k

namespace Code.Numbered

variable {n m n' : Nat} {c d : Code}

theorem of_labels_eq_nil (h : c.labels = []) (n : Nat) : Numbered n n c :=
  ⟨0, rfl, by simp [h]⟩

theorem append (hc : Numbered n m c) (hd : Numbered m n' d) : Numbered n n' (c ++ d) := by
  obtain ⟨j, rfl, hc⟩ := hc
  obtain ⟨k, rfl, hd⟩ := hd
  refine ⟨j + k, by omega, ?_⟩
  rw [labels_append, List.map_append, hc, hd, Nat.add_right_comm n j 1, List.range'_append_1]

theorem nodup (h : Numbered n n' c) : c.labels.Nodup := by
  obtain ⟨k, _, h⟩ := h
  exact .of_map Label.number (h ▸ List.nodup_range' 1)

end Code.Numbered

-- The code inside of an instruction.
def Instr.bodies : Instr → List Code
  | .block _ c | .loop _ c | .branch c none => [c]
  | .branch c (some d) => [c, d]
  | _ => []

-- Code stands in other code, perhaps inside of its instructions.
inductive Code.Contains : Code → Code → Prop
  | here {c d : Code} (h : d <:+: c) : Contains c d
  | inside {c d b : Code} {i : Instr} (hi : i ∈ c) (hb : b ∈ i.bodies) (h : Contains b d) :
    Contains c d

namespace Code.Contains

variable {b c d : Code}

theorem mono (h : Contains c d) (hc : c <:+: b) : Contains b d := by
  cases h with
  | here h => exact .here (h.trans hc)
  | inside hi hb h => exact .inside (hc.subset hi) hb h

theorem trans (hb : Contains b c) (hc : Contains c d) : Contains b d := by
  induction hb with
  | here h => exact hc.mono h
  | inside hi hb _ ih => exact .inside hi hb (ih hc)

theorem refl (c : Code) : Contains c c :=
  .here (List.infix_refl c)

theorem append_left (h : Contains c d) : Contains (c ++ b) d :=
  h.mono (List.prefix_append c b).isInfix

theorem append_right (h : Contains c d) : Contains (b ++ c) d :=
  h.mono (List.suffix_append b c).isInfix

end Code.Contains

end Wat

open Wat

variable {declared : List String} {n n' : Nat} {c : Wat.Code}

theorem Expr.wat_typed {e : Expr} (h : e.wat declared = .ok c) (ls : List Label) :
    c.Typed declared ls [] [.i32] := by
  induction e generalizing c with
  | num v =>
    cases h
    exact .single .const
  | var x =>
    simp only [wat, bind_eq_ok, pure_eq_ok] at h
    obtain ⟨_, hx, rfl⟩ := h
    exact .single (.get (mem_of_resolve hx))
  | bin op l r ihl ihr =>
    simp only [wat, bind_eq_ok, pure_eq_ok] at h
    obtain ⟨cl, hl, cr, hr, rfl⟩ := h
    exact ((ihl hl).append ((ihr hr).frame [.i32])).append (.single .arith)

theorem Cond.wat_typed {test : Cond} (h : test.wat declared = .ok c) (ls : List Label) :
    c.Typed declared ls [] [.i32] := by
  simp only [wat, bind_eq_ok, pure_eq_ok] at h
  obtain ⟨cl, hl, cr, hr, rfl⟩ := h
  have hoperands := (Expr.wat_typed hl ls).append ((Expr.wat_typed hr ls).frame [.i32])
  exact hoperands.append (.single .compare)

theorem Expr.labels_wat {e : Expr} (h : e.wat declared = .ok c) : c.labels = [] := by
  induction e generalizing c with
  | num v =>
    cases h
    rfl
  | var x =>
    simp only [wat, bind_eq_ok, pure_eq_ok] at h
    obtain ⟨_, _, rfl⟩ := h
    rfl
  | bin op l r ihl ihr =>
    simp only [wat, bind_eq_ok, pure_eq_ok] at h
    obtain ⟨cl, hl, cr, hr, rfl⟩ := h
    simp [ihl hl, ihr hr, Code.labels, Instr.labels]

theorem Cond.labels_wat {test : Cond} (h : test.wat declared = .ok c) : c.labels = [] := by
  simp only [wat, bind_eq_ok, pure_eq_ok] at h
  obtain ⟨cl, hl, cr, hr, rfl⟩ := h
  simp [Expr.labels_wat hl, Expr.labels_wat hr, Code.labels, Instr.labels]

-- The code of a test and of a block stands in the code of its statement.
theorem Stmt.contains_test {s : Stmt} {test : Cond} (h : s.wat declared n = .ok (c, n'))
    (ht : test ∈ s.test?) : ∃ ct, test.wat declared = .ok ct ∧ c.Contains ct := by
  match s with
  | declare .. | assign .. => simp [test?] at ht
  | loop test b =>
    cases ht
    simp only [wat, bind_eq_ok, pure_eq_ok, Prod.mk.injEq] at h
    obtain ⟨ct, ht, _, _, rfl, rfl⟩ := h
    refine ⟨ct, ht, .inside (.head _) (.head _) (.inside (.head _) (.head _) ?_)⟩
    exact .append_left (.append_left (.append_left (.refl ct)))
  | branch test t none =>
    cases ht
    simp only [wat, bind_eq_ok, pure_eq_ok, Prod.mk.injEq] at h
    obtain ⟨ct, ht, _, _, rfl, rfl⟩ := h
    exact ⟨ct, ht, .append_left (.refl ct)⟩
  | branch test t (some f) =>
    cases ht
    simp only [wat, bind_eq_ok, pure_eq_ok, Prod.mk.injEq] at h
    obtain ⟨ct, ht, _, _, _, _, rfl, rfl⟩ := h
    exact ⟨ct, ht, .append_left (.refl ct)⟩

theorem Stmt.contains_block {s : Stmt} {b : Program} (h : s.wat declared n = .ok (c, n'))
    (hb : b ∈ s.blocks) : ∃ m cb m', b.wat declared m = .ok (cb, m') ∧ c.Contains cb := by
  match s with
  | declare .. | assign .. => simp [blocks] at hb
  | loop test b =>
    cases List.mem_singleton.mp hb
    simp only [wat, bind_eq_ok, pure_eq_ok, Prod.mk.injEq] at h
    obtain ⟨_, _, ⟨cb, _⟩, hb, rfl, rfl⟩ := h
    refine ⟨_, cb, _, hb, .inside (.head _) (.head _) (.inside (.head _) (.head _) ?_)⟩
    exact .append_left (.append_right (.refl cb))
  | branch test t none =>
    cases List.mem_singleton.mp hb
    simp only [wat, bind_eq_ok, pure_eq_ok, Prod.mk.injEq] at h
    obtain ⟨_, _, ⟨cb, _⟩, hb, rfl, rfl⟩ := h
    exact ⟨_, cb, _, hb, .append_right (.inside (.head _) (.head _) (.refl cb))⟩
  | branch test t (some f) =>
    simp only [wat, bind_eq_ok, pure_eq_ok, Prod.mk.injEq] at h
    obtain ⟨_, _, ⟨cs, _⟩, ht, ⟨cf, _⟩, hf, rfl, rfl⟩ := h
    cases List.mem_pair.mp hb with
    | inl hb =>
      exact ⟨_, cs, _, hb ▸ ht, .append_right (.inside (.head _) (.head _) (.refl cs))⟩
    | inr hb =>
      exact ⟨_, cf, _, hb ▸ hf, .append_right (.inside (.head _) (.tail _ (.head _)) (.refl cf))⟩

namespace Program

variable {p : Program}

theorem wat_typed (h : p.wat declared n = .ok (c, n'))
    (hd : p.introduced .declarations ⊆ declared) (ls : List Label) : c.Typed declared ls [] [] := by
  refine wat_induction (P := fun p _ c _ => p.introduced .declarations ⊆ declared →
    ∀ ls, c.Typed declared ls [] []) ?_ ?_ ?_ ?_ ?_ ?_ h hd ls
  case refine_1 => exact fun _ _ _ => .nil
  case refine_2 =>
    intro x e ce k n c n' he ih hd ls
    simp only [introduced, Stmt.introduced, List.singleton_append, List.cons_subset] at hd
    exact ((Expr.wat_typed he ls).append (.single (.set hd.1))).append (ih hd.2 ls)
  case refine_3 =>
    intro x e ce k n c n' hx he ih hd ls
    exact ((Expr.wat_typed he ls).append (.single (.set hx))).append
      (ih (by simpa [introduced, Stmt.introduced] using hd) ls)
  case refine_4 =>
    intro test ct b cb k n m c n' ht ihb ih hd ls
    simp only [introduced, Stmt.introduced, List.append_subset] at hd
    let inner : List Label := .loop (n + 2) :: .exit (n + 1) :: ls
    have hexit : Code.Typed declared inner [.eqz, .brIf (.exit (n + 1))] [.i32] [] :=
      .append (.single .eqz) (.single (.brIf (by simp [inner])))
    have hagain : Code.Typed declared inner [.br (.loop (n + 2))] [] [] :=
      .single (.br (by simp [inner]))
    have hround := (((Cond.wat_typed ht _).append hexit).append (ihb hd.1 _)).append hagain
    exact (Code.Typed.single (.block (.single (.loop hround)))).append (ih hd.2 ls)
  case refine_5 =>
    intro test ct t cs k n m c n' ht iht ih hd ls
    simp only [introduced, Stmt.introduced, List.append_subset] at hd
    exact ((Cond.wat_typed ht ls).append (.single (.branch (iht hd.1 ls)))).append (ih hd.2 ls)
  case refine_6 =>
    intro test ct t cs f cf k n m m' c n' ht iht ihf ih hd ls
    simp only [introduced, Stmt.introduced, List.append_subset] at hd
    exact ((Cond.wat_typed ht ls).append
      (.single (.branchElse (iht hd.1.1 ls) (ihf hd.1.2 ls)))).append (ih hd.2 ls)

theorem wat_numbered (h : p.wat declared n = .ok (c, n')) : c.Numbered n n' := by
  have plain : ∀ {ce cp : Wat.Code} {i : Instr} {n n' : Nat}, ce.labels = [] → i.labels = [] →
      cp.Numbered n n' → (ce ++ [i] ++ cp).Numbered n n' := fun he hi hp =>
    .append (.of_labels_eq_nil (by simp [he, hi, Code.labels]) _) hp
  refine wat_induction (P := fun _ n c n' => c.Numbered n n') ?_ ?_ ?_ ?_ ?_ ?_ h
  case refine_1 => exact .of_labels_eq_nil rfl
  case refine_2 => exact fun he ih => plain (Expr.labels_wat he) rfl ih
  case refine_3 => exact fun _ he ih => plain (Expr.labels_wat he) rfl ih
  case refine_4 =>
    rintro test ct b cb k n m c n' ht ⟨j, hj, hb⟩ ih
    refine .append ⟨j + 2, by omega, ?_⟩ ih
    simp [Code.labels, Instr.labels, Cond.labels_wat ht, hb, Label.number, List.range'_succ]
  case refine_5 =>
    intro test ct t cs k n m c n' ht iht ih
    refine .append ?_ ih
    simpa [Code.Numbered, Code.labels, Instr.labels, Cond.labels_wat ht] using iht
  case refine_6 =>
    intro test ct t cs f cf k n m m' c n' ht iht ihf ih
    refine .append ?_ ih
    simpa [Code.Numbered, Code.labels, Instr.labels, Cond.labels_wat ht] using iht.append ihf

end Program

theorem Stmt.wat_typed {s : Stmt} (h : s.wat declared n = .ok (c, n'))
    (hd : s.introduced .declarations ⊆ declared) (ls : List Label) :
    c.Typed declared ls [] [] := by
  have hp : Program.wat declared n [s] = .ok (c, n') := by
    simp only [Program.wat, bind_eq_ok, pure_eq_ok]
    exact ⟨_, h, _, rfl, by simp⟩
  exact Program.wat_typed hp (by simpa [Program.introduced] using hd) ls

-- The code of a statement and of its test are parts of `body`, of these types.
structure Stmt.Validates (declared : List String) (body : Wat.Code) (s : Stmt) : Prop where
  code : ∃ n c n', s.wat declared n = .ok (c, n') ∧ body.Contains c ∧
    ∀ ls, c.Typed declared ls [] []
  test : ∀ test ∈ s.test?, ∃ c, test.wat declared = .ok c ∧ body.Contains c ∧
    ∀ ls, c.Typed declared ls [] [.i32]

theorem Stmt.validates {s : Stmt} (h : s.wat declared n = .ok (c, n'))
    (hd : s.introduced .declarations ⊆ declared) : s.Validates declared c where
  code := ⟨n, c, n', h, .refl c, Stmt.wat_typed h hd⟩
  test _ ht :=
    have ⟨ct, hct, hcontains⟩ := Stmt.contains_test h ht
    ⟨ct, hct, hcontains, Cond.wat_typed hct⟩

theorem Stmt.Validates.mono {s : Stmt} {d : Wat.Code} (h : s.Validates declared c)
    (hd : d.Contains c) : s.Validates declared d where
  code :=
    have ⟨n, cs, n', hs, hc, ht⟩ := h.code
    ⟨n, cs, n', hs, hd.trans hc, ht⟩
  test test hmem :=
    have ⟨ct, hct, hc, ht⟩ := h.test test hmem
    ⟨ct, hct, hd.trans hc, ht⟩

namespace Program

variable {o : Options} {p : Program} {m : Module}

-- Whatever the code of a program is, all of its statements validate in there.
def Validates (declared : List String) (p : Program) : Prop :=
  p.introduced .declarations ⊆ declared →
    ∀ n c n', p.wat declared n = .ok (c, n') → ∀ s ∈ p.parts, s.Validates declared c

theorem Validates.cons {s : Stmt} (hb : ∀ b ∈ s.blocks, Validates declared b)
    (hp : Validates declared p) : Validates declared (s :: p) := by
  intro hd n c n' h t ht
  obtain ⟨cs, m, cp, hs, hcp, rfl⟩ := wat_cons_eq_ok h
  rw [introduced, List.append_subset] at hd
  rw [parts, Stmt.parts_eq] at ht
  cases List.mem_append.mp ht with
  | inr ht => exact (hp hd.2 _ _ _ hcp t ht).mono (.append_right (.refl cp))
  | inl ht =>
    refine Stmt.Validates.mono ?_ (.append_left (.refl cs))
    cases List.mem_cons.mp ht with
    | inl ht => exact ht ▸ Stmt.validates hs hd.1
    | inr ht =>
      obtain ⟨b, hmem, ht⟩ := List.mem_flatMap.mp ht
      obtain ⟨_, _, _, hcb, hcontains⟩ := Stmt.contains_block hs hmem
      have hdb := List.Subset.trans (Stmt.introduced_block_subset .declarations hmem) hd.1
      exact (hb b hmem hdb _ _ _ hcb t ht).mono hcontains

theorem validates (declared : List String) (p : Program) : Validates declared p := by
  induction p using Program.induction with
  | nil => simp [Validates, parts]
  | declare x e k ih | assign x e k ih => exact .cons (by simp [Stmt.blocks]) ih
  | loop test b k ihb ih => exact .cons (by simpa [Stmt.blocks] using ihb) ih
  | branch test t k iht ih => exact .cons (by simpa [Stmt.blocks] using iht) ih
  | branchElse test t f k iht ihf ih => exact .cons (by simp [Stmt.blocks, iht, ihf]) ih

theorem watModule_valid (h : p.watModule o = .ok m) : m.toFunction.Valid := by
  obtain ⟨⟨n, hc⟩, hl, hres, hmem⟩ := watModule_eq_ok h
  have hcode := wat_typed hc (p.introduced_subset_names _) []
  refine ⟨?_, ?_, ?_⟩
  case refine_1 =>
    have hlocals : m.locals.Nodup := hl ▸ nodup_names
    exact hlocals
  case refine_2 =>
    have hlast : Code.labels (m.result.map .get).toList = [] := by cases m.result <;> rfl
    have hbody : m.body.labels = m.code.labels := by simp [Module.body, hlast]
    exact hbody ▸ (wat_numbered hc).nodup
  case refine_3 =>
    rw [← hl] at hcode
    refine hcode.append ?_
    unfold Module.toFunction
    cases hr : m.result with
    | none => exact .nil
    | some x => exact .single (.get (hmem x (hres ▸ hr)))

-- The text of a program in plain names reads as the function of its module.
theorem read?_of_watModule (h : p.watModule o = .ok m) (ho : o.Legible)
    (hx : ∀ x ∈ p.names .declarations, IsPlain x) :
    read? (m.text o.indent) = some m.toFunction := by
  have ⟨_, hl, _, _⟩ := watModule_eq_ok h
  have ⟨hfunction, hexported⟩ := watModule_header h
  exact Module.read?_text ho.indent (hfunction ▸ ho.function) (hexported ▸ ho.exported) (hl ▸ hx)
    (watModule_valid h).body

-- In an indentation by white space, and with names in letters, digits and underscores, the text of
-- a program has its parentheses in pairs and reads as a valid function. Its locals are the names
-- that the program declares, and it returns an integer if it has a local to return.
theorem watText_valid {text : String} (hi : ∀ c ∈ o.indent.toList, c.isWhitespace)
    (hf : IsPlain o.function) (he : ∀ e ∈ o.exported, IsPlain e)
    (hx : ∀ x ∈ p.names .declarations, IsPlain x) (h : p.watText o = .ok text) :
    Balanced text ∧ ∃ f, read? text = some f ∧ f.name = o.function ∧ f.exported = o.exported ∧
      f.locals = p.names .declarations ∧ f.results = (if o.result.isSome then [.i32] else []) ∧
      f.Valid ∧ ∀ s ∈ p.parts, s.Validates f.locals f.body := by
  simp only [watText, bind_eq_ok, pure_eq_ok] at h
  obtain ⟨m, hm, rfl⟩ := h
  have ⟨⟨n, hc⟩, hl, hres, _⟩ := watModule_eq_ok hm
  have ⟨hfunction, hexported⟩ := watModule_header hm
  have hvalid := watModule_valid hm
  have hread := read?_of_watModule hm ⟨hi, hf, he⟩ hx
  have hbody : m.body.Contains m.code := .append_left (.refl m.code)
  rw [← hl] at hx hc ⊢
  rw [← hfunction] at hf ⊢
  rw [← hexported] at he ⊢
  refine ⟨Module.text_balanced hi hf he hx hvalid.body, m.toFunction, hread, rfl, rfl, rfl,
    hres ▸ rfl, hvalid, fun s hs => ?_⟩
  have hd : p.introduced .declarations ⊆ m.locals := hl ▸ p.introduced_subset_names _
  exact (validates m.locals p hd 0 m.code n hc s hs).mono hbody

-- Two loops, one inside of the other, and a conditional with an alternative.
def nested : Program :=
  [.declare "i" (.num 3), .declare "total" (.num (-1)),
    .loop ⟨.gt, .var "i", .num 0⟩
      [.assign "i" (.bin .sub (.var "i") (.num 1)),
        .loop ⟨.lt, .var "total", .var "i"⟩
          [.assign "total" (.bin .add (.var "total") (.num 2)), .declare "_k" (.var "i")]],
    .branch ⟨.eq, .var "_k", .num 0⟩ [.assign "total" (.num 0)] (some [])]

theorem nested_valid :
    ∃ text f, nested.watText ⟨"\t", "_start", some "run2", some "total"⟩ = .ok text ∧
      Balanced text ∧ read? text = some f ∧ f.locals = ["i", "total", "_k"] ∧ f.results = [.i32] ∧
      f.Valid := by
  have ⟨text, ht⟩ : ∃ text,
      nested.watText ⟨"\t", "_start", some "run2", some "total"⟩ = .ok text := ⟨_, rfl⟩
  have ⟨hbalanced, f, hread, _, _, hlocals, hresults, hvalid, _⟩ :=
    watText_valid (by simp) (by decide) (by simp +decide) (by simp +decide) ht
  exact ⟨text, f, ht, hbalanced, hread, hlocals, hresults, hvalid⟩

end Program

end Imp
