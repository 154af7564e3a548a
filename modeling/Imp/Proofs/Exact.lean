import Imp.Proofs.Except
import Imp.Run

/-!
Arithmetic of integers without bounds, beside the arithmetic of values, which wraps around.
-/

namespace Imp

namespace Operator

def exact : Operator → Int → Int → Int
  | add, a, b => a + b
  | sub, a, b => a - b
  | mul, a, b => a * b

-- Wrapping around once, behind an exact operation, is wrapping around before it and behind it.
theorem ofInt_exact (op : Operator) (a b : Int) :
    Int32.ofInt (op.exact a b) = op.apply (.ofInt a) (.ofInt b) := by
  cases op
  case add => exact Int32.ofInt_add a b
  case sub => exact Int32.ofInt_sub a b
  case mul => exact Int32.ofInt_mul a b

theorem apply_eq_ofInt (op : Operator) (a b : Int32) :
    op.apply a b = .ofInt (op.exact a.toInt b.toInt) := by
  simp [ofInt_exact]

end Operator

namespace Relation

def exact : Relation → Int → Int → Bool
  | gt, a, b => b < a
  | lt, a, b => a < b
  | ge, a, b => b ≤ a
  | le, a, b => a ≤ b
  | eq, a, b => a = b
  | ne, a, b => a ≠ b

theorem holds_eq_exact (r : Relation) (a b : Int32) : r.holds a b = r.exact a.toInt b.toInt := by
  cases r
  case gt | lt => simp [holds, exact, Int32.lt_iff_toInt_lt]
  case ge | le => simp [holds, exact, Int32.le_iff_toInt_le]
  case eq | ne => exact Bool.eq_iff_iff.mpr (by simp [holds, exact, Int32.toInt_inj])

end Relation

-- The bindings as integers without bounds.
def Env.ints (env : Env) (x : String) : Option Int :=
  (env.get? x).map Int32.toInt

namespace Expr

-- The value in integers without bounds, if every name has one.
def exact (σ : String → Option Int) : Expr → Option Int
  | num v => some v.toInt
  | var x => σ x
  | bin op l r => do return op.exact (← l.exact σ) (← r.exact σ)

theorem exact_of_eval {env : Env} {e : Expr} {v : Int32} (h : e.eval env = .ok v) :
    ∃ i, e.exact env.ints = some i ∧ v = .ofInt i := by
  induction e generalizing v with
  | num w =>
    cases h
    exact ⟨w.toInt, rfl, (Int32.ofInt_toInt w).symm⟩
  | var x =>
    simp only [eval] at h
    split at h
    case h_1 w hw =>
      obtain rfl := Except.ok.inj h
      exact ⟨w.toInt, by simp [exact, Env.ints, hw], (Int32.ofInt_toInt w).symm⟩
    case h_2 => simp at h
  | bin op l r ihl ihr =>
    simp only [eval, bind_eq_ok, pure_eq_ok] at h
    obtain ⟨a, ha, b, hb, rfl⟩ := h
    obtain ⟨i, hi, rfl⟩ := ihl ha
    obtain ⟨j, hj, rfl⟩ := ihr hb
    exact ⟨op.exact i j, by simp [exact, hi, hj], (op.ofInt_exact i j).symm⟩

end Expr

end Imp
