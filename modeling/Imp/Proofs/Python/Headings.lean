import Imp.Proofs.Python.Layout

/-!
The lines of a Python text. Every statement of a program has one, in the order in which the
statements begin, and the others are `pass` and `else:`.
-/

namespace Imp

open Token.Lexer (isWordChar)

-- What the first line of a statement says.
inductive Stmt.Clause
  | binding (name : String) (value : Expr)
  | loop (test : Cond)
  | branch (test : Cond)
deriving DecidableEq, Repr

def Stmt.Clause.text : Clause → String
  | binding x e => x ++ " = " ++ e.text 0
  | loop test => "while " ++ test.text ++ ":"
  | branch test => "if " ++ test.text ++ ":"

def Stmt.clause : Stmt → Clause
  | declare x e | assign x e => .binding x e
  | loop test _ => .loop test
  | branch test _ _ => .branch test

def Stmt.heading (s : Stmt) : String :=
  s.clause.text

section Newlines

variable {d : Dialect}

theorem newline_not_mem_of_letters {cs : List Char} (hl : cs.all isWordChar) : '\n' ∉ cs :=
  fun h => absurd (List.all_eq_true.mp hl _ h) (by decide)

theorem Dialect.IsName.newline_not_mem {x : String} (hx : d.IsName x) : '\n' ∉ x.toList :=
  newline_not_mem_of_letters hx.letters

theorem newline_not_mem_toString (v : Int32) : '\n' ∉ (toString v.toInt).toList := by
  have hdigits : ∀ n, '\n' ∉ Nat.toDigits 10 n := fun n h =>
    absurd (isDigit_of_mem_toDigits _ h) (by decide)
  obtain ⟨n, _, _, htext⟩ | ⟨n, _, _, htext⟩ := toString_toInt_cases v
  case inl => exact htext ▸ hdigits n
  case inr =>
    rw [htext]
    simp [hdigits n]

theorem Expr.newline_not_mem_text {e : Expr} (he : ∀ x ∈ e.names, d.IsName x) (outer : Nat) :
    '\n' ∉ (e.text outer).toList := by
  induction e generalizing outer with
  | num v => exact newline_not_mem_toString v
  | var x => exact (he x (by simp [names])).newline_not_mem
  | bin op l r ihl ihr =>
    have hl := ihl (fun x hx => he x (List.mem_append_left _ hx)) op.precedence
    have hr := ihr (fun x hx => he x (List.mem_append_right _ hx)) (op.precedence + 1)
    have hop : '\n' ∉ op.symbol.toList := by cases op <;> decide
    simp only [text]
    split <;> simp [hl, hr, hop]

theorem Cond.newline_not_mem_text {c : Cond} (hl : ∀ x ∈ c.left.names, d.IsName x)
    (hr : ∀ x ∈ c.right.names, d.IsName x) : '\n' ∉ c.text.toList := by
  have hrel : '\n' ∉ c.rel.symbol.toList := by cases c.rel <;> decide
  simp [text, Expr.newline_not_mem_text hl, Expr.newline_not_mem_text hr, hrel]

end Newlines

namespace Python

variable {indent text : String} {ls : Listing}

-- A text that fits on a line and starts where the line does.
structure Flush (text : String) : Prop where
  head : ∀ c ∈ text.toList.head?, ¬isBlank c
  oneLine : '\n' ∉ text.toList

theorem flush_pass : Flush "pass" where
  head := says_pass.flush
  oneLine := by decide

theorem flush_else : Flush "else:" where
  head := says_else.flush
  oneLine := by decide

theorem flush_header {d : Dialect} {k : String} {test : Cond} (hk : k ∈ keywords)
    (hl : ∀ x ∈ test.left.names, d.IsName x) (hr : ∀ x ∈ test.right.names, d.IsName x) :
    Flush (k ++ " " ++ test.text ++ ":") where
  head := by
    have ⟨hne, hletters⟩ := letters_of_mem_keywords hk
    simp only [String.toList_append, List.append_assoc]
    exact not_isBlank_head hne hletters
  oneLine := by
    have hword : '\n' ∉ k.toList := newline_not_mem_of_letters (letters_of_mem_keywords hk).2
    simp [hword, Cond.newline_not_mem_text hl hr]

-- The lines of a text, each with the column where it starts. Every line ends in a line feed.
def lines (text : String) : List (Nat × String) :=
  (text.toList.splitOn '\n').dropLast.map fun cs =>
    (column (cs.takeWhile isBlank), String.ofList (cs.dropWhile isBlank))

theorem splitOn_render (hi : '\n' ∉ indent.toList) (hl : ∀ l ∈ ls, Flush l.text) :
    (ls.render indent).toList.splitOn '\n' =
      ls.map (fun l => (l.render indent).toList) ++ [[]] := by
  induction ls with
  | nil => simp [Listing.render]
  | cons l ls ih =>
    obtain ⟨hline, hls⟩ := List.forall_mem_cons.mp hl
    have hmem : '\n' ∉ (l.render indent).toList := by
      simp only [Line.render, String.toList_append, List.mem_append, not_or]
      exact ⟨fun h => hi (Line.mem_margin h), hline.oneLine⟩
    rw [Listing.toList_render_cons, List.splitOn_append_cons_self_of_not_mem hmem, ih hls]
    rfl

theorem lines_render (hi : indent.toList.all isBlank) (hl : ∀ l ∈ ls, Flush l.text) :
    lines (ls.render indent) = ls.map fun l => (columnAt indent l.depth, l.text) := by
  have hnewline : '\n' ∉ indent.toList := fun h =>
    absurd (List.all_eq_true.mp hi _ h) (by decide)
  rw [lines, splitOn_render hnewline hl, List.dropLast_concat, List.map_map]
  refine List.map_congr_left fun l hmem => ?_
  have hmargin := List.all_eq_true.mp (margin_blank hi l.depth)
  have ⟨htake, hdrop⟩ := takeWhile_append_eq hmargin (hl l hmem).head
  simp [Line.render, htake, hdrop, columnAt]

-- Whether a line belongs to a statement.
def isHeading (text : String) : Bool :=
  text ≠ "pass" && text ≠ "else:"

-- The lines of a text that belong to statements, without the blanks in front of them.
def headings (text : String) : List String :=
  ((lines text).map Prod.snd).filter isHeading

end Python

open Python

-- The lines of a statement behind its heading.
def Stmt.body (depth : Nat) : Stmt → Listing
  | declare .. | assign .. => []
  | loop _ b | branch _ b none => block (depth + 1) (Program.python (depth + 1) b)
  | branch _ t (some f) =>
    block (depth + 1) (Program.python (depth + 1) t) ++
      ⟨depth, "else:"⟩ :: block (depth + 1) (Program.python (depth + 1) f)

namespace Stmt

variable {d : Dialect} {s : Stmt}

theorem python_eq (s : Stmt) (depth : Nat) :
    s.python depth = ⟨depth, s.heading⟩ :: s.body depth := by
  match s with
  | declare .. | assign .. | loop .. | branch _ _ none | branch _ _ (some _) => rfl

theorem space_mem_heading (s : Stmt) : ' ' ∈ s.heading.toList := by
  cases s <;> simp [heading, clause, Clause.text]

theorem heading_ne {text : String} (h : ' ' ∉ text.toList) : s.heading ≠ text :=
  fun heq => h (heq ▸ s.space_mem_heading)

theorem isHeading_heading (s : Stmt) : isHeading s.heading := by
  have hpass : s.heading ≠ "pass" := heading_ne (by decide)
  have helse : s.heading ≠ "else:" := heading_ne (by decide)
  simp [isHeading, hpass, helse]

theorem flush_heading (hs : ∀ x ∈ s.mentions, d.IsName x) : Flush s.heading := by
  cases s with
  | declare x e | assign x e =>
    have hx : d.IsName x := hs x (by simp [mentions, target?])
    have he : '\n' ∉ (e.text 0).toList :=
      Expr.newline_not_mem_text (fun y hy => hs y (by simp [mentions, exprs, hy])) 0
    refine ⟨?_, by simp [heading, clause, Clause.text, hx.newline_not_mem, he]⟩
    simp only [heading, clause, Clause.text, String.toList_append, List.append_assoc]
    exact not_isBlank_head (by simp [hx.nonempty]) hx.letters
  | loop test b =>
    have hl : ∀ x ∈ test.left.names, d.IsName x := fun x hx => hs x (by simp [mentions, exprs, hx])
    have hr : ∀ x ∈ test.right.names, d.IsName x := fun x hx => hs x (by simp [mentions, exprs, hx])
    exact flush_header (k := "while") (by decide) hl hr
  | branch test t f =>
    have hl : ∀ x ∈ test.left.names, d.IsName x := fun x hx => hs x (by simp [mentions, exprs, hx])
    have hr : ∀ x ∈ test.right.names, d.IsName x := fun x hx => hs x (by simp [mentions, exprs, hx])
    exact flush_header (k := "if") (by decide) hl hr

end Stmt

namespace Program

variable {d : Dialect} {indent : String} {p : Program}

theorem filter_block (depth : Nat) (ls : Listing) :
    ((block depth ls).map Line.text).filter isHeading = (ls.map Line.text).filter isHeading := by
  cases ls with
  | nil => simp [block, isHeading]
  | cons l ls => rfl

theorem filter_python_cons (s : Stmt) (k : Program) (depth : Nat) :
    ((python depth (s :: k)).map Line.text).filter isHeading =
      s.heading :: (((s.body depth).map Line.text).filter isHeading ++
        ((k.python depth).map Line.text).filter isHeading) := by
  simp [python, s.python_eq, s.isHeading_heading]

theorem filter_python (p : Program) (depth : Nat) :
    ((p.python depth).map Line.text).filter isHeading = p.parts.map Stmt.heading := by
  induction p using Program.induction generalizing depth with
  | nil => rfl
  | declare x e k ih | assign x e k ih =>
    simp [filter_python_cons, ih, Stmt.body, parts, Stmt.parts]
  | loop c b k ihb ih =>
    simp [filter_python_cons, ih, ihb, filter_block, Stmt.body, parts, Stmt.parts]
  | branch c t k iht ih =>
    simp [filter_python_cons, ih, iht, filter_block, Stmt.body, parts, Stmt.parts]
  | branchElse c t f k iht ihf ih =>
    simp [filter_python_cons, ih, iht, ihf, filter_block, Stmt.body, parts, Stmt.parts, isHeading]

theorem flush_of_mem_block (hp : ∀ x ∈ p.mentions, d.IsName x) :
    ∀ l ∈ block 0 (p.python 0), Flush l.text := by
  intro l hl
  by_cases hheading : isHeading l.text
  case pos =>
    have hmem : l.text ∈ ((block 0 (p.python 0)).map Line.text).filter isHeading :=
      List.mem_filter.mpr ⟨List.mem_map_of_mem hl, hheading⟩
    rw [filter_block, filter_python] at hmem
    obtain ⟨s, hs, htext⟩ := List.mem_map.mp hmem
    exact htext ▸ Stmt.flush_heading fun x hx => hp x (List.mem_flatMap.mpr ⟨s, hs, hx⟩)
  case neg =>
    have htext : l.text = "pass" ∨ l.text = "else:" := by
      simpa [isHeading, Decidable.or_iff_not_imp_left] using hheading
    exact htext.elim (· ▸ flush_pass) (· ▸ flush_else)

theorem lines_pythonText (hi : indent.toList.all isBlank) (hp : ∀ x ∈ p.mentions, d.IsName x) :
    lines (p.pythonText indent) =
      (block 0 (p.python 0)).map fun l => (columnAt indent l.depth, l.text) :=
  lines_render hi (flush_of_mem_block hp)

-- The lines of a program's text, but for `pass` and `else:`, are those of its statements, outer
-- ones before inner ones.
theorem headings_pythonText (hi : indent.toList.all isBlank) (hp : ∀ x ∈ p.mentions, d.IsName x) :
    headings (p.pythonText indent) = p.parts.map Stmt.heading := by
  rw [headings, lines_pythonText hi hp, List.map_map]
  exact (filter_block 0 _).trans (filter_python p 0)

end Program

end Imp
