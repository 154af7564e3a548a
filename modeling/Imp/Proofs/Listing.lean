import Imp.Listing

/-!
The characters of a rendered listing.
-/

namespace Imp

variable {indent : String} {c : Char}

theorem Line.mem_margin {depth : Nat} (h : c ∈ (Line.margin indent depth).toList) :
    c ∈ indent.toList := by
  induction depth with
  | zero => simp [margin] at h
  | succ depth ih =>
    rw [margin, String.toList_append] at h
    cases List.mem_append.mp h with
    | inl h => exact h
    | inr h => exact ih h

namespace Listing

theorem toList_render_nil : (render indent []).toList = [] := by
  simp [render]

theorem toList_render_cons (l : Line) (ls : Listing) : (render indent (l :: ls)).toList
    = (l.render indent).toList ++ '\n' :: (ls.render indent).toList := by
  simp [render]

theorem toList_render_append (ls ls' : Listing) : (render indent (ls ++ ls')).toList
    = (ls.render indent).toList ++ (ls'.render indent).toList := by
  simp [render]

end Listing

end Imp
