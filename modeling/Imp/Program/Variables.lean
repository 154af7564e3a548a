import Imp.Program.Names

/-!
The variables of a program as they are collected on one walk through it: the list of their names, in
the order of their first appearance, and the set of them, by which a name is found again.
-/

namespace Imp

structure Variables where
  names : List String
  seen : String → Bool
  nodup : names.Nodup
  -- the list and the set are kept in step
  seen_iff : ∀ x, seen x = true ↔ x ∈ names

namespace Variables

def empty : Variables where
  names := []
  seen _ := false
  nodup := List.nodup_nil
  seen_iff := by simp

instance : Inhabited Variables := ⟨empty⟩

def contains (v : Variables) (x : String) : Bool :=
  v.seen x

def size (v : Variables) : Nat :=
  v.names.length

def isEmpty (v : Variables) : Bool :=
  v.names.isEmpty

-- Puts a name behind the others, unless it is among them.
def insert (v : Variables) (x : String) : Variables :=
  if h : v.seen x then v
  else {
    names := v.names ++ [x]
    seen := fun y => y = x || v.seen y
    nodup := by
      have hx : x ∉ v.names := fun hx => h ((v.seen_iff x).mpr hx)
      refine List.nodup_append.mpr ⟨v.nodup, by simp, fun y hy z hz => ?_⟩
      exact List.mem_singleton.mp hz ▸ fun hyx => hx (hyx ▸ hy)
    seen_iff := fun y => by simp [v.seen_iff, or_comm]
  }

end Variables

mutual

-- Collects the names that a statement introduces, inner blocks included.
def Stmt.collect (mode : Introduces) : Stmt → Variables → Variables
  | .declare x _, v => v.insert x
  | .assign x _, v => if mode = .declarationsAndAssignments then v.insert x else v
  | .loop _ b, v => Program.collect mode b v
  | .branch _ t none, v => Program.collect mode t v
  | .branch _ t (some f), v => Program.collect mode f (Program.collect mode t v)

def Program.collect (mode : Introduces) : Program → Variables → Variables
  | [], v => v
  | s :: p, v => Program.collect mode p (s.collect mode v)

end

def Program.vars (mode : Introduces) (p : Program) : Variables :=
  p.collect mode .empty

end Imp
