import Imp.Proofs.Files.Path

/-!
Paths as lists of components. What a path starts from is a component of its own; beside that, empty
parts and `.` say nothing. A path without such parts and without `..` stays where it is joined to.
-/

namespace Imp

namespace Path

-- The component for what a path with these parts starts from: the root, or what is called `.`.
def lead : List String → List String
  | "" :: _ :: _ => ["/"]
  | "." :: _ => ["."]
  | _ => []

-- Paths with the same components are the same path.
def components (p : String) : List String :=
  lead (parts p) ++ names p

-- A part that goes on to an entry of a directory.
structure IsEntry (n : String) : Prop where
  ne_empty : n ≠ ""
  ne_here : n ≠ "."
  ne_above : n ≠ ".."

-- All parts go on to an entry.
def Plain (p : String) : Prop :=
  ∀ n ∈ parts p, IsEntry n

instance (n : String) : Decidable (IsEntry n) :=
  decidable_of_iff (n ≠ "" ∧ n ≠ "." ∧ n ≠ "..")
    ⟨fun ⟨h₁, h₂, h₃⟩ => ⟨h₁, h₂, h₃⟩, fun ⟨h₁, h₂, h₃⟩ => ⟨h₁, h₂, h₃⟩⟩

instance (p : String) : Decidable (Plain p) :=
  inferInstanceAs (Decidable (∀ n ∈ parts p, IsEntry n))

variable {p q : String} {ps qs : List String} {m n : String}

theorem intercalate_split (cs : List Char) : ['/'].intercalate (split cs) = cs := by
  induction cs with
  | nil => rfl
  | cons c cs ih =>
    obtain ⟨w, ws, hw⟩ := List.exists_cons_of_ne_nil (split_ne_nil cs)
    simp only [split, hw] at ih ⊢
    split
    case isTrue hc => simp [ih, hc]
    case isFalse => cases ws <;> simp_all

theorem ofNames_parts (p : String) : ofNames (parts p) = p := by
  rw [← String.toList_inj, ofNames, String.toList_intercalate, parts, List.map_map]
  have hid : (String.toList ∘ String.ofList : List Char → List Char) = id :=
    funext fun _ => String.toList_ofList
  rw [hid, List.map_id]
  exact intercalate_split p.toList

theorem parts_injective (h : parts p = parts q) : p = q := by
  rw [← ofNames_parts p, h, ofNames_parts]

theorem Plain.names_eq (h : Plain p) : names p = parts p :=
  List.filter_eq_self.mpr fun n hn => by simp [(h n hn).ne_empty, (h n hn).ne_here]

theorem Plain.not_isAbsolute (h : Plain p) : isAbsolute p = false := by
  rw [Bool.eq_false_iff, Ne, isAbsolute_iff]
  rintro ⟨q, qs, hparts⟩
  exact (h "" (hparts ▸ List.mem_cons_self)).ne_empty rfl

-- What a path starts from does not hang on its entries.
theorem lead_append (hm : IsEntry m) (hn : IsEntry n) :
    lead (ps ++ [m] ++ qs) = lead (ps ++ [n]) := by
  have hentry : ∀ {n ns}, IsEntry n → lead (n :: ns) = [] := by
    intro n ns hn
    rw [lead]
    case x_2 => simp [hn.ne_empty]
    case x_3 => simp [hn.ne_here]
  have hfront : ∀ {p x y xs ys}, lead (p :: x :: xs) = lead (p :: y :: ys) := by
    intros
    unfold lead
    split <;> simp_all
  cases ps with
  | nil => exact (hentry hm).trans (hentry hn).symm
  | cons p ps =>
    cases ps with
    | nil => exact hfront
    | cons q ps => exact hfront

-- What is joined to a path comes behind the same components each time.
theorem exists_components_join (p : String) : ∃ front, ∀ n, IsEntry n → '/' ∉ n.toList →
    components (join p n) = front ++ [n] := by
  refine ⟨lead (base p ++ ["x"]) ++ (base p).filter fun n => n ≠ "" && n ≠ ".",
    fun n hn hslash => ?_⟩
  have hx : IsEntry "x" := by decide
  have hlead : lead (base p ++ [n] ++ []) = lead (base p ++ ["x"]) := lead_append hn hx
  rw [List.append_nil] at hlead
  rw [components, names, parts_join (isAbsolute_of_not_mem hslash), parts_of_not_mem hslash, hlead,
    List.filter_append, List.append_assoc]
  simp [hn.ne_empty, hn.ne_here]

theorem components_join (hn : IsEntry n) (hslash : '/' ∉ n.toList) (hq : Plain q) :
    components (join (join p n) q) = components (join p n) ++ parts q := by
  have hbase : parts (join p n) = base p ++ [n] := by
    rw [parts_join (isAbsolute_of_not_mem hslash), parts_of_not_mem hslash]
  have hparts : parts (join (join p n) q) = base p ++ [n] ++ parts q := by
    rw [parts_join hq.not_isAbsolute, base_join hn.ne_empty hslash]
  have hnames : (parts q).filter _ = parts q := hq.names_eq
  rw [components, components, names, names, hparts, hbase, lead_append hn hn, List.filter_append,
    hnames, List.append_assoc]

end Path

end Imp
