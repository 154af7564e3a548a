import Imp.Proofs.Names
import Imp.Proofs.Wat.Layout

/-!
The translation to WebAssembly fails at the first name, in the order of the text, that no
declaration of the program introduces, and only there.
-/

namespace Imp

-- `x` is the first of some names for which `P` fails.
def FirstFailure (P : String → Prop) (xs : List String) (x : String) : Prop :=
  ∃ before after, xs = before ++ x :: after ∧ (∀ y ∈ before, P y) ∧ ¬P x

namespace FirstFailure

variable {P : String → Prop} {x y : String} {xs : List String}

@[simp]
theorem cons_iff : FirstFailure P (y :: xs) x ↔ (y = x ∧ ¬P x) ∨ (P y ∧ FirstFailure P xs x) := by
  constructor
  case mp =>
    rintro ⟨before, after, hxs, hbefore, hx⟩
    cases before with
    | nil => exact .inl ⟨(List.cons.inj hxs).1, hx⟩
    | cons b before =>
      obtain ⟨rfl, rfl⟩ := List.cons.inj hxs
      exact .inr ⟨hbefore _ (.head _), before, after, rfl, fun z hz => hbefore z (.tail _ hz), hx⟩
  case mpr =>
    rintro (⟨rfl, hx⟩ | ⟨hy, before, after, rfl, hbefore, hx⟩)
    · exact ⟨[], xs, rfl, nofun, hx⟩
    · exact ⟨y :: before, after, rfl, List.forall_mem_cons.mpr ⟨hy, hbefore⟩, hx⟩

end FirstFailure

namespace Wat

variable {declared xs ys : List String} {α β : Type} {r : Except Undeclared α}

-- The result of resolving some names one after the other: it is the first of them to be refused.
def Resolves (declared xs : List String) (r : Except Undeclared α) : Prop :=
  match xs.find? fun x => !decide (x ∈ declared) with
  | none => ∃ a, r = .ok a
  | some x => r = .error ⟨x⟩

namespace Resolves

theorem ok (declared : List String) (a : α) : Resolves declared [] (.ok a) :=
  ⟨a, rfl⟩

theorem resolve (declared : List String) (x : String) :
    Resolves declared [x] (Wat.resolve declared x) := by
  by_cases hx : x ∈ declared <;> simp [Resolves, Wat.resolve, hx]

theorem bind {f : α → Except Undeclared β} (hr : Resolves declared xs r)
    (hf : ∀ a, Resolves declared ys (f a)) : Resolves declared (xs ++ ys) (r >>= f) := by
  unfold Resolves at hr hf ⊢
  rw [List.find?_append]
  split at hr
  case h_1 hx =>
    obtain ⟨a, rfl⟩ := hr
    rw [hx]
    exact hf a
  case h_2 x hx =>
    rw [hx, hr]
    rfl

theorem map {f : α → β} (hr : Resolves declared xs r) :
    Resolves declared xs (do return f (← r)) :=
  xs.append_nil ▸ hr.bind fun a => ok declared (f a)

theorem isOk_iff (hr : Resolves declared xs r) : (∃ a, r = .ok a) ↔ ∀ x ∈ xs, x ∈ declared := by
  unfold Resolves at hr
  split at hr
  case h_1 hx => exact iff_of_true hr (by simpa using hx)
  case h_2 x hx =>
    have hnot : x ∉ declared := by simpa using List.find?_some hx
    exact iff_of_false (by simp [hr]) fun h => hnot (h x (List.mem_of_find?_eq_some hx))

theorem eq_error_iff {x : String} (hr : Resolves declared xs r) :
    r = .error ⟨x⟩ ↔ FirstFailure (· ∈ declared) xs x := by
  have hfirst : r = .error ⟨x⟩ ↔ xs.find? (fun x => !decide (x ∈ declared)) = some x := by
    unfold Resolves at hr
    split at hr
    case h_1 hx =>
      obtain ⟨a, rfl⟩ := hr
      simp [hx]
    case h_2 y hy => simp [hr, hy]
  rw [hfirst, List.find?_eq_some_iff_append]
  constructor
  case mp => exact fun ⟨hx, before, after, hxs, hbefore⟩ =>
    ⟨before, after, hxs, by simpa using hbefore, by simpa using hx⟩
  case mpr => exact fun ⟨before, after, hxs, hbefore, hx⟩ =>
    ⟨by simpa using hx, before, after, hxs, by simpa using hbefore⟩

end Resolves

end Wat

open Wat

variable (declared : List String)

theorem Expr.wat_resolves (e : Expr) : Resolves declared e.names (e.wat declared) := by
  induction e with
  | num v => exact .ok declared _
  | var x => exact (Resolves.resolve declared x).map
  | bin op l r ihl ihr => exact ihl.bind fun _ => ihr.map

theorem Cond.wat_resolves (test : Cond) :
    Resolves declared (test.left.names ++ test.right.names) (test.wat declared) :=
  (Expr.wat_resolves declared test.left).bind fun _ => (Expr.wat_resolves declared test.right).map

theorem Stmt.wat_resolves {s : Stmt}
    (hb : ∀ b ∈ s.blocks, ∀ n, Resolves declared b.uses (b.wat declared n)) (n : Nat) :
    Resolves declared (s.uses ++ s.blocks.flatMap Program.uses) (s.wat declared n) := by
  match s with
  | declare x e =>
    rw [wat]
    simpa [uses, reads, exprs, blocks] using (Expr.wat_resolves declared e).map
  | assign x e =>
    rw [wat]
    simpa [uses, reads, exprs, blocks] using
      (Resolves.resolve declared x).bind fun _ => (Expr.wat_resolves declared e).map
  | loop test b =>
    rw [wat]
    simpa [uses, reads, exprs, blocks] using
      (Cond.wat_resolves declared test).bind fun _ => (hb b (.head _) (n + 2)).map
  | branch test t none =>
    rw [wat]
    simpa [uses, reads, exprs, blocks] using
      (Cond.wat_resolves declared test).bind fun _ => (hb t (.head _) n).map
  | branch test t (some f) =>
    rw [wat]
    simpa [uses, reads, exprs, blocks] using
      (Cond.wat_resolves declared test).bind fun _ => (hb t (.head _) n).bind fun c =>
        (hb f (.tail _ (.head _)) c.2).map

namespace Program

theorem wat_resolves (p : Program) : ∀ n, Resolves declared p.uses (p.wat declared n) := by
  have cons : ∀ {s p}, (∀ b ∈ s.blocks, ∀ n, Resolves declared (uses b) (b.wat declared n)) →
      (∀ n, Resolves declared (uses p) (p.wat declared n)) →
      ∀ n, Resolves declared (uses (s :: p)) (wat declared n (s :: p)) := by
    intro s p hb hp n
    rw [uses_cons, wat]
    exact (Stmt.wat_resolves declared hb n).bind fun c => (hp c.2).map
  induction p using Program.induction with
  | nil => exact fun n => .ok declared _
  | declare x e k ih | assign x e k ih => exact cons (by simp [Stmt.blocks]) ih
  | loop test b k ihb ih => exact cons (by simpa [Stmt.blocks] using ihb) ih
  | branch test t k iht ih => exact cons (by simpa [Stmt.blocks] using iht) ih
  | branchElse test t f k iht ihf ih => exact cons (by simp [Stmt.blocks, iht, ihf]) ih

theorem watText_resolves (o : Options) (p : Program) :
    Resolves (p.names .declarations) (o.result.toList ++ p.uses) (p.watText o) := by
  have hresult : Resolves (p.names .declarations) o.result.toList
      (o.result.forM (resolve (p.names .declarations))) := by
    cases o.result with
    | none => exact .ok _ _
    | some x => exact .resolve _ x
  exact (hresult.bind fun _ => (wat_resolves _ p 0).map).map

-- A program translates if and only if it declares the local to return, if there is one, and every
-- name that it assigns to or reads. Otherwise the local to return is refused if it is not declared,
-- and else the first name of the text that is not.
theorem watText_refusal (o : Options) (p : Program) :
    ((∃ text, p.watText o = .ok text) ↔
      (∀ x ∈ o.result, p.Declares x) ∧ ∀ x ∈ p.uses, p.Declares x) ∧
    ∀ x, p.watText o = .error ⟨x⟩ ↔ (o.result = some x ∧ ¬p.Declares x) ∨
      ((∀ y ∈ o.result, p.Declares y) ∧ FirstFailure p.Declares p.uses x) := by
  have hr := watText_resolves o p
  simp only [hr.isOk_iff, hr.eq_error_iff, mem_names_declarations]
  cases o.result <;> simp

end Program

end Imp
