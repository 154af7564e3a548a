import Imp.Proofs.Except
import Imp.Wat.Compile

/-!
The WebAssembly code of a program, statement by statement.
-/

namespace Imp

open Wat

theorem Wat.mem_of_resolve {declared : List String} {x : String} {u : Unit}
    (h : resolve declared x = .ok u) : x ∈ declared := by
  unfold resolve at h
  split at h
  case isTrue hx => exact hx
  case isFalse => simp at h

namespace Program

variable {o : Options} {p : Program} {m : Module}

theorem watModule_eq_ok (h : p.watModule o = .ok m) :
    (∃ n, p.wat (p.names .declarations) 0 = .ok (m.code, n)) ∧
      m.locals = p.names .declarations ∧ m.result = o.result ∧ ∀ x ∈ o.result, x ∈ m.locals := by
  simp only [watModule, bind_eq_ok, pure_eq_ok] at h
  obtain ⟨_, hr, ⟨c, n⟩, hc, rfl⟩ := h
  refine ⟨⟨n, hc⟩, rfl, rfl, fun x hx => ?_⟩
  rw [hx] at hr
  exact mem_of_resolve hr

theorem watModule_header (h : p.watModule o = .ok m) :
    m.function = o.function ∧ m.exported = o.exported := by
  simp only [watModule, bind_eq_ok, pure_eq_ok] at h
  obtain ⟨_, _, _, _, rfl⟩ := h
  exact ⟨rfl, rfl⟩

variable {declared : List String} {n n' : Nat} {c : Code}

theorem wat_cons_eq_ok {s : Stmt} (h : wat declared n (s :: p) = .ok (c, n')) :
    ∃ cs m cp, s.wat declared n = .ok (cs, m) ∧ p.wat declared m = .ok (cp, n') ∧ c = cs ++ cp := by
  simp only [wat, bind_eq_ok, pure_eq_ok, Prod.mk.injEq] at h
  obtain ⟨⟨cs, m⟩, hs, ⟨cp, _⟩, hp, rfl, rfl⟩ := h
  exact ⟨cs, m, cp, hs, hp, rfl⟩

-- Code that stores the value of an expression, of a loop, and of conditionals.
theorem wat_induction {P : Program → Nat → Code → Nat → Prop} (nil : ∀ n, P [] n [] n)
    (declare : ∀ {x e ce k n c n'}, e.wat declared = .ok ce → P k n c n' →
      P (.declare x e :: k) n (ce ++ [.set x] ++ c) n')
    (assign : ∀ {x e ce k n c n'}, x ∈ declared → e.wat declared = .ok ce → P k n c n' →
      P (.assign x e :: k) n (ce ++ [.set x] ++ c) n')
    (loop : ∀ {test ct b cb k n m c n'}, test.wat declared = .ok ct → P b (n + 2) cb m →
      P k m c n' → P (.loop test b :: k) n
        ([.block (.exit (n + 1)) [.loop (.loop (n + 2)) (ct ++ [.eqz, .brIf (.exit (n + 1))]
          ++ cb ++ [.br (.loop (n + 2))])]] ++ c) n')
    (branch : ∀ {test ct t cs k n m c n'}, test.wat declared = .ok ct → P t n cs m → P k m c n' →
      P (.branch test t none :: k) n (ct ++ [.branch cs none] ++ c) n')
    (branchElse : ∀ {test ct t cs f cf k n m m' c n'}, test.wat declared = .ok ct → P t n cs m →
      P f m cf m' → P k m' c n' →
      P (.branch test t (some f) :: k) n (ct ++ [.branch cs (some cf)] ++ c) n')
    (h : p.wat declared n = .ok (c, n')) : P p n c n' := by
  induction p using Program.induction generalizing n c n' with
  | nil =>
    cases h
    exact nil n
  | declare x e k ih =>
    obtain ⟨_, _, cp, hs, hp, rfl⟩ := wat_cons_eq_ok h
    simp only [Stmt.wat, bind_eq_ok, pure_eq_ok, Prod.mk.injEq] at hs
    obtain ⟨ce, he, rfl, rfl⟩ := hs
    exact declare he (ih hp)
  | assign x e k ih =>
    obtain ⟨_, _, cp, hs, hp, rfl⟩ := wat_cons_eq_ok h
    simp only [Stmt.wat, bind_eq_ok, pure_eq_ok, Prod.mk.injEq] at hs
    obtain ⟨_, hx, ce, he, rfl, rfl⟩ := hs
    exact assign (mem_of_resolve hx) he (ih hp)
  | loop test b k ihb ih =>
    obtain ⟨_, _, cp, hs, hp, rfl⟩ := wat_cons_eq_ok h
    simp only [Stmt.wat, bind_eq_ok, pure_eq_ok, Prod.mk.injEq] at hs
    obtain ⟨ct, ht, ⟨cb, m⟩, hb, rfl, rfl⟩ := hs
    exact loop ht (ihb hb) (ih hp)
  | branch test t k iht ih =>
    obtain ⟨_, _, cp, hs, hp, rfl⟩ := wat_cons_eq_ok h
    simp only [Stmt.wat, bind_eq_ok, pure_eq_ok, Prod.mk.injEq] at hs
    obtain ⟨ct, ht, ⟨cs, m⟩, hb, rfl, rfl⟩ := hs
    exact branch ht (iht hb) (ih hp)
  | branchElse test t f k iht ihf ih =>
    obtain ⟨_, _, cp, hs, hp, rfl⟩ := wat_cons_eq_ok h
    simp only [Stmt.wat, bind_eq_ok, pure_eq_ok, Prod.mk.injEq] at hs
    obtain ⟨ct, ht, ⟨cs, m⟩, hb, ⟨cf, m'⟩, hf, rfl, rfl⟩ := hs
    exact branchElse ht (iht hb) (ihf hf) (ih hp)

end Program

end Imp
