import Imp.Program.Names
import Imp.Proofs.Parts

/-!
The names that a program introduces or uses, and where they come from.
-/

namespace Imp

theorem nodup_eraseDups : ∀ xs : List String, xs.eraseDups.Nodup
  | [] => by simp
  | x :: xs => by
    have hrest := nodup_eraseDups (xs.filter fun y => !y == x)
    rw [List.eraseDups_cons, List.nodup_cons, List.mem_eraseDups]
    exact ⟨by simp, hrest⟩
termination_by xs => xs.length
decreasing_by exact Nat.lt_succ_of_le (List.length_filter_le _ _)

-- The name that a statement itself introduces.
def Stmt.introduces? (mode : Introduces) : Stmt → Option String
  | declare x _ => some x
  | assign x _ => if mode = .declarationsAndAssignments then some x else none
  | loop .. | branch .. => none

-- The names in an expression.
def Expr.names : Expr → List String
  | num _ => []
  | var x => [x]
  | bin _ l r => l.names ++ r.names

-- The names that a statement itself reads.
def Stmt.reads (s : Stmt) : List String :=
  s.exprs.flatMap Expr.names

-- The names that a statement itself assigns to or reads, in the order of its text.
def Stmt.uses : Stmt → List String
  | assign x e => x :: e.names
  | s => s.reads

-- The name that a statement binds.
def Stmt.target? : Stmt → Option String
  | declare x _ | assign x _ => some x
  | loop .. | branch .. => none

-- The names in a statement itself, without its blocks.
def Stmt.mentions (s : Stmt) : List String :=
  s.target?.toList ++ s.exprs.flatMap Expr.names

-- The names in a program.
def Program.mentions (p : Program) : List String :=
  p.parts.flatMap Stmt.mentions

theorem Stmt.introduced_block_subset {s : Stmt} {b : Program} (mode : Introduces)
    (hb : b ∈ s.blocks) : b.introduced mode ⊆ s.introduced mode := by
  match s with
  | declare .. | assign .. => simp [blocks] at hb
  | loop .. | branch _ _ none => exact List.mem_singleton.mp hb ▸ List.Subset.refl _
  | branch _ t (some f) =>
    simp only [blocks, List.mem_cons, List.not_mem_nil, or_false] at hb
    cases hb with
    | inl hb => exact hb ▸ List.subset_append_left _ _
    | inr hb => exact hb ▸ List.subset_append_right _ _

namespace Program

variable {mode : Introduces} {x : String} {p q : Program}

theorem introduced_eq (p : Program) (mode : Introduces) :
    p.introduced mode = p.parts.filterMap (Stmt.introduces? mode) := by
  induction p using Program.induction with
  | nil => rfl
  | declare x e k ih =>
    simp [introduced, Stmt.introduced, parts, Stmt.parts, Stmt.introduces?, ih]
  | assign x e k ih =>
    cases mode <;> simp [introduced, Stmt.introduced, parts, Stmt.parts, Stmt.introduces?, ih]
  | loop c b k ihb ih =>
    simp [introduced, Stmt.introduced, parts, Stmt.parts, List.filterMap_cons, Stmt.introduces?,
      ihb, ih]
  | branch c t k iht ih =>
    simp [introduced, Stmt.introduced, parts, Stmt.parts, List.filterMap_cons, Stmt.introduces?,
      iht, ih]
  | branchElse c t f k iht ihf ih =>
    simp [introduced, Stmt.introduced, parts, Stmt.parts, List.filterMap_cons, Stmt.introduces?,
      iht, ihf, ih]

-- Whether a program declares a name, at any depth.
def Declares (p : Program) (x : String) : Prop :=
  ∃ e, .declare x e ∈ p.parts

-- Whether a program declares a name or assigns to it, and whether it reads it, at any depth.
def Sets (p : Program) (x : String) : Prop :=
  ∃ e, .declare x e ∈ p.parts ∨ .assign x e ∈ p.parts

def Gets (p : Program) (x : String) : Prop :=
  ∃ s ∈ p.parts, x ∈ s.reads

-- The names that a program assigns to or reads, as often as it does and in the order of its text.
def uses (p : Program) : List String :=
  p.parts.flatMap Stmt.uses

theorem mem_names : x ∈ p.names mode ↔ x ∈ p.introduced mode :=
  List.mem_eraseDups

theorem mem_names_iff : x ∈ p.names mode ↔ ∃ s ∈ p.parts, s.introduces? mode = some x := by
  rw [mem_names, introduced_eq, List.mem_filterMap]

theorem mem_names_declarations : x ∈ p.names .declarations ↔ p.Declares x := by
  rw [mem_names_iff]
  constructor
  case mp =>
    rintro ⟨s, hs, hx⟩
    match s with
    | .declare _ e => exact ⟨e, Option.some.inj hx ▸ hs⟩
    | .assign .. | .loop .. | .branch .. => simp [Stmt.introduces?] at hx
  case mpr => exact fun ⟨e, he⟩ => ⟨_, he, rfl⟩

theorem mem_names_declarationsAndAssignments :
    x ∈ p.names .declarationsAndAssignments ↔ p.Sets x := by
  rw [mem_names_iff]
  constructor
  case mp =>
    rintro ⟨s, hs, hx⟩
    match s with
    | .declare _ e => exact ⟨e, .inl (Option.some.inj hx ▸ hs)⟩
    | .assign _ e => exact ⟨e, .inr (Option.some.inj hx ▸ hs)⟩
    | .loop .. | .branch .. => simp [Stmt.introduces?] at hx
  case mpr => exact fun ⟨e, he⟩ => he.elim (fun he => ⟨_, he, rfl⟩) fun he => ⟨_, he, rfl⟩

theorem introduced_subset_names (p : Program) (mode : Introduces) :
    p.introduced mode ⊆ p.names mode :=
  fun _ hx => mem_names.mpr hx

theorem nodup_names : (p.names mode).Nodup :=
  nodup_eraseDups _

theorem mentions_declare (x : String) (e : Expr) (p : Program) :
    mentions (.declare x e :: p) = x :: (e.names ++ p.mentions) := by
  simp [mentions, parts, Stmt.parts, Stmt.mentions, Stmt.target?, Stmt.exprs]

theorem mentions_assign (x : String) (e : Expr) (p : Program) :
    mentions (.assign x e :: p) = x :: (e.names ++ p.mentions) := by
  simp [mentions, parts, Stmt.parts, Stmt.mentions, Stmt.target?, Stmt.exprs]

theorem mentions_loop (test : Cond) (b p : Program) : mentions (.loop test b :: p) =
    test.left.names ++ test.right.names ++ b.mentions ++ p.mentions := by
  simp [mentions, parts, Stmt.parts, Stmt.mentions, Stmt.target?, Stmt.exprs]

theorem introduced_subset_mentions (p : Program) (mode : Introduces) :
    p.introduced mode ⊆ p.mentions := by
  intro x hx
  rw [introduced_eq, List.mem_filterMap] at hx
  obtain ⟨s, hs, hx⟩ := hx
  refine List.mem_flatMap.mpr ⟨s, hs, List.mem_append_left _ ?_⟩
  match s with
  | .declare .. => simpa [Stmt.target?, Stmt.introduces?, eq_comm] using hx
  | .assign .. =>
    simp only [Stmt.introduces?] at hx
    split at hx
    case isTrue => simpa [Stmt.target?, eq_comm] using hx
    case isFalse => nomatch hx
  | .loop .. | .branch .. => nomatch hx

theorem uses_cons (s : Stmt) (p : Program) :
    uses (s :: p) = s.uses ++ s.blocks.flatMap uses ++ p.uses := by
  simp only [uses, parts, Stmt.parts_eq, List.flatMap_append, List.flatMap_cons, List.flatMap_assoc]
  rfl

@[simp]
theorem introduced_append : (p ++ q).introduced mode = p.introduced mode ++ q.introduced mode := by
  induction p with
  | nil => simp [introduced]
  | cons s p ih => simp [introduced, ih]

end Program

end Imp
