import Imp.Proofs.Listing
import Imp.Proofs.Python.Lines
import Imp.Python
import Mathlib.Data.List.TakeWhile
import Mathlib.Order.Monotone.Basic

/-!
The Python text of a program is read as the program.
-/

namespace Imp

namespace Python

-- A block without statements is written as `pass`.
def suite (ss : List Stmt) : List Stmt :=
  if ss.isEmpty then [.pass] else ss

end Python

mutual

def Stmt.inPython : Imp.Stmt → Python.Stmt
  | .declare x e | .assign x e => .assign x e.inPython
  | .loop c b => .loop c.inPython (Python.suite (Program.inPython b))
  | .branch c t none => .branch c.inPython (Python.suite (Program.inPython t)) none
  | .branch c t (some f) =>
    .branch c.inPython (Python.suite (Program.inPython t))
      (some (Python.suite (Program.inPython f)))

-- What the text of a program is read as, but for a program without statements.
def Program.inPython : Program → List Python.Stmt
  | [] => []
  | s :: p => s.inPython :: Program.inPython p

end

namespace Python

variable {indent : String} {depth : Nat}

structure IsIndent (indent : String) : Prop where
  nonempty : indent ≠ ""
  blank : indent.toList.all isBlank

theorem isIndent_default : IsIndent defaultIndent where
  nonempty := by decide
  blank := by decide

section Columns

-- Where the lines at a depth start.
def columnAt (indent : String) (depth : Nat) : Nat :=
  column (Line.margin indent depth).toList

-- The columns of the blocks around a block at a depth, and its own.
def columnsAt (indent : String) : Nat → List Nat
  | 0 => [columnAt indent 0]
  | depth + 1 => columnAt indent (depth + 1) :: columnsAt indent depth

theorem margin_succ : Line.margin indent (depth + 1) = Line.margin indent depth ++ indent := by
  induction depth with
  | zero => simp [Line.margin]
  | succ depth ih => rw [Line.margin, ih, ← String.append_assoc, ← Line.margin, ih]

theorem margin_blank (hi : indent.toList.all isBlank) (depth : Nat) :
    (Line.margin indent depth).toList.all isBlank :=
  List.all_eq_true.mpr fun c hc => List.all_eq_true.mp hi c (Line.mem_margin hc)

theorem column_lt_append_singleton (bs : List Char) (c : Char) :
    column bs < column (bs ++ [c]) := by
  simp only [column, List.foldl_append, List.foldl_cons, List.foldl_nil]
  split <;> omega

theorem column_le_append (bs cs : List Char) : column bs ≤ column (bs ++ cs) := by
  induction cs generalizing bs with
  | nil => simp
  | cons c cs ih =>
    rw [List.append_cons]
    exact Nat.le_of_lt (Nat.lt_of_lt_of_le (column_lt_append_singleton bs c) (ih _))

theorem column_lt_append {bs cs : List Char} (hc : cs ≠ []) : column bs < column (bs ++ cs) := by
  cases cs with
  | nil => exact (hc rfl).elim
  | cons c cs =>
    rw [List.append_cons]
    exact Nat.lt_of_lt_of_le (column_lt_append_singleton bs c) (column_le_append _ cs)

theorem IsIndent.strictMono_columnAt (hi : IsIndent indent) : StrictMono (columnAt indent) := by
  refine strictMono_nat_of_lt_succ fun depth => ?_
  rw [columnAt, columnAt, margin_succ, String.toList_append]
  exact column_lt_append (by simp [hi.nonempty])

end Columns

section Rows

variable {cs rest : List Char} {r : Row} {ts : List Token}

theorem newline_not_mem_of_dropWhile {f : Char → Bool} (hf : f '\n' = false)
    (h : '\n' ∉ cs.dropWhile f) : '\n' ∉ cs := by
  rw [← @List.takeWhile_append_dropWhile _ f cs, List.mem_append]
  rintro (hn | hn)
  case inl => exact absurd (List.mem_takeWhile_imp hn) (by simp [hf])
  case inr => exact h hn

theorem ne_newline {f : Char → Bool} {c : Char} (hc : f c) (hf : f '\n' = false) : '\n' ≠ c := by
  rintro rfl
  simp [hf] at hc

-- No line feed is part of a token, and it is no blank.
theorem newline_not_mem_of_tokens? (h : tokens? cs = some ts) : '\n' ∉ cs := by
  fun_induction tokens? cs generalizing ts with
  | case1 => simp
  | case2 c cs hc ih => simp [ne_newline hc (by decide), ih h]
  | case3 c cs hb hc ih =>
    simp only [Option.bind_eq_bind, Option.bind_eq_some_iff] at h
    obtain ⟨us, hus, -⟩ := h
    simp [ne_newline hc (by decide), newline_not_mem_of_dropWhile (by decide) (ih hus)]
  | case4 c cs hb hstart hc ih =>
    simp only [Option.bind_eq_bind, Option.bind_eq_some_iff] at h
    obtain ⟨t, -, us, hus, -⟩ := h
    simp [ne_newline hc (by decide), newline_not_mem_of_dropWhile (by decide) (ih hus)]
  | case5 c cs hb hstart hdigit s t hfind ih =>
    simp only [Option.bind_eq_bind, Option.bind_eq_some_iff] at h
    obtain ⟨us, hus, -⟩ := h
    have hsymbols : ∀ s ∈ symbols, s.1.toList ≠ [] ∧ '\n' ∉ s.1.toList := by decide
    have ⟨hne, hs⟩ := hsymbols _ (List.mem_of_find?_eq_some hfind)
    obtain ⟨rest, hrest⟩ : s.toList <+: c :: cs := by simpa using List.find?_some hfind
    obtain ⟨c', w, hw⟩ := List.exists_cons_of_ne_nil hne
    have hlength : s.length - 1 = w.length := by simp [← String.length_toList, hw]
    simp only [hw, List.cons_append, List.cons.injEq] at hs hrest
    obtain ⟨rfl, rfl⟩ := hrest
    have hrest := ih hus
    rw [hlength, List.drop_left] at hrest
    simpa [hrest] using hs
  | case6 => cases h

theorem newline_not_mem_of_row? (h : row? cs = some r) : '\n' ∉ cs := by
  simp only [row?, Option.bind_eq_bind, Option.bind_eq_some_iff] at h
  obtain ⟨ts, hts, -⟩ := h
  exact newline_not_mem_of_dropWhile (by decide) (newline_not_mem_of_tokens? hts)

theorem not_blank_of_row? (h : row? cs = some r) : ¬cs.all isBlank := by
  intro hb
  have hnil : cs.dropWhile isBlank = [] := by
    rw [List.dropWhile_eq_nil_iff]
    exact List.all_eq_true.mp hb
  simp [row?, hnil, tokens?_nil, clause?] at h

theorem rows?_cons (h : row? cs = some r) :
    rows? (cs ++ '\n' :: rest) = (rows? rest).map (r :: ·) := by
  rw [rows?, List.splitOn_append_cons_self_of_not_mem (newline_not_mem_of_row? h),
    List.filter_cons_of_pos (by simpa using not_blank_of_row? h), List.mapM_cons, h, rows?]
  cases List.mapM row? _ <;> rfl

theorem IsIndent.row?_render (hi : IsIndent indent) {text : String} {c : Clause}
    (h : Says text c) :
    row? (Line.render indent ⟨depth, text⟩).toList = some ⟨columnAt indent depth, c⟩ := by
  have hmargin : (Line.margin indent depth).toList.all isBlank := margin_blank hi.blank depth
  have ⟨htake, hdrop⟩ := takeWhile_append_eq (List.all_eq_true.mp hmargin) h.flush
  have ⟨ts, hts, hc⟩ := Option.bind_eq_some_iff.mp h.clause
  rw [Line.render, String.toList_append, row?, htake, hdrop]
  simp [hts, hc, columnAt]

theorem rows?_render {ls : Listing} {rows : List Row}
    (h : ls.mapM (fun l => row? (l.render indent).toList) = some rows) :
    rows? (Listing.render indent ls).toList = some rows := by
  induction ls generalizing rows with
  | nil =>
    cases h
    simp [Listing.render, rows?]
  | cons l ls ih =>
    simp only [List.mapM_cons, Option.bind_eq_bind, Option.bind_eq_some_iff] at h
    obtain ⟨r, hr, rs, hrs, hrows⟩ := h
    cases hrows
    rw [Listing.toList_render_cons, rows?_cons hr, ih hrs]
    rfl

end Rows

section Marks

variable {rows rows' rest : List Row} {ms ms' : List Mark}

theorem head_columnsAt (indent : String) (depth : Nat) :
    (columnsAt indent depth).head? = some (columnAt indent depth) := by
  cases depth <;> rfl

theorem length_columnsAt (indent : String) (depth : Nat) :
    (columnsAt indent depth).length = depth + 1 := by
  induction depth with
  | zero => rfl
  | succ depth ih => simp [columnsAt, ih]

theorem shift?_stay : shift? (columnsAt indent depth) (columnAt indent depth) =
    some ([], columnsAt indent depth) := by
  cases depth <;> simp [shift?, columnsAt]

theorem IsIndent.shift?_open (hi : IsIndent indent) :
    shift? (columnsAt indent depth) (columnAt indent (depth + 1)) =
      some ([.indent], columnsAt indent (depth + 1)) := by
  have hlt := hi.strictMono_columnAt (Nat.lt_succ_self depth)
  simp [shift?, head_columnsAt, hlt, columnsAt]

theorem IsIndent.shift?_close (hi : IsIndent indent) {target : Nat} (ht : target ≤ depth) :
    shift? (columnsAt indent (depth + 1)) (columnAt indent target) =
      (shift? (columnsAt indent depth) (columnAt indent target)).map
        fun (ms, columns) => (.dedent :: ms, columns) := by
  have hlt := hi.strictMono_columnAt (Nat.lt_succ_of_le ht)
  have hle := hi.strictMono_columnAt.monotone ht
  have hdrop : (columnsAt indent (depth + 1)).dropWhile (columnAt indent target < ·) =
      (columnsAt indent depth).dropWhile (columnAt indent target < ·) := by
    simp [columnsAt, hlt]
  have hlength := (List.dropWhile_sublist (l := columnsAt indent depth)
    (columnAt indent target < ·)).length_le
  simp only [shift?, head_columnsAt, hdrop, Option.mem_some_iff, forall_eq', Nat.not_lt.mpr hle,
    Nat.not_lt.mpr (Nat.le_of_lt hlt), if_false]
  split
  case isTrue =>
    have hdedents : (columnsAt indent (depth + 1)).length =
        (columnsAt indent depth).length + 1 := rfl
    rw [Option.map_some, hdedents, Nat.succ_sub hlength, List.replicate_succ]
  case isFalse => rfl

theorem marks?_cons (columns : List Nat) (r : Row) (rows : List Row) :
    marks? columns (r :: rows) = (shift? columns r.column).bind fun (ms, columns) =>
      (marks? columns rows).map (ms ++ .clause r.clause :: ·) := by
  rw [marks?]
  cases shift? columns r.column with
  | none => rfl
  | some next => cases h : marks? next.2 rows <;> simp [h]

theorem marks?_stay (c : Clause) (rows : List Row) :
    marks? (columnsAt indent depth) (⟨columnAt indent depth, c⟩ :: rows) =
      (marks? (columnsAt indent depth) rows).map (.clause c :: ·) := by
  simp [marks?_cons, shift?_stay]

theorem IsIndent.marks?_open (hi : IsIndent indent) {r : Row}
    (hr : r.column = columnAt indent (depth + 1)) :
    marks? (columnsAt indent depth) (r :: rows) =
      (marks? (columnsAt indent (depth + 1)) (r :: rows)).map (.indent :: ·) := by
  simp [marks?_cons, hr, hi.shift?_open, shift?_stay, Function.comp_def]

-- The next line is not further to the right than the lines at a depth.
def Within (indent : String) (depth : Nat) (rows : List Row) : Prop :=
  ∀ r ∈ rows.head?, ∃ target ≤ depth, r.column = columnAt indent target

theorem Within.succ (h : Within indent depth rows) : Within indent (depth + 1) rows := fun r hr =>
  have ⟨target, ht, hr⟩ := h r hr
  ⟨target, Nat.le_succ_of_le ht, hr⟩

theorem IsIndent.marks?_close (hi : IsIndent indent) (h : Within indent depth rows) :
    marks? (columnsAt indent (depth + 1)) rows =
      (marks? (columnsAt indent depth) rows).map (.dedent :: ·) := by
  cases rows with
  | nil => simp [marks?, length_columnsAt, List.replicate_succ]
  | cons r rows =>
    have ⟨target, ht, hr⟩ := h r rfl
    simp [marks?_cons, hr, hi.shift?_close ht, Option.bind_map, Option.map_bind, Function.comp_def]

-- Rows at a depth have these marks, before a row that is not further to the right.
structure Spans (indent : String) (depth : Nat) (rows : List Row) (ms : List Mark) : Prop where
  head : ∀ r ∈ rows.head?, r.column = columnAt indent depth
  marks : ∀ {rest}, Within indent depth rest → marks? (columnsAt indent depth) (rows ++ rest) =
    (marks? (columnsAt indent depth) rest).map (ms ++ ·)

namespace Spans

theorem within (h : Spans indent depth rows ms) (hrest : Within indent depth rest) :
    Within indent depth (rows ++ rest) := by
  cases rows with
  | nil => exact hrest
  | cons r rows => exact fun r hr => ⟨depth, Nat.le_refl _, h.head r hr⟩

theorem nil : Spans indent depth [] [] where
  head := by simp
  marks _ := by simp

theorem clause (c : Clause) : Spans indent depth [⟨columnAt indent depth, c⟩] [.clause c] where
  head := by simp
  marks _ := marks?_stay c _

theorem append (h : Spans indent depth rows ms) (h' : Spans indent depth rows' ms') :
    Spans indent depth (rows ++ rows') (ms ++ ms') where
  head := by
    cases rows with
    | nil => exact h'.head
    | cons r rows => exact h.head
  marks hrest := by
    rw [List.append_assoc, h.marks (h'.within hrest), h'.marks hrest]
    simp [Function.comp_def]

theorem block (hi : IsIndent indent) (c : Clause) (hne : rows ≠ [])
    (h : Spans indent (depth + 1) rows ms) :
    Spans indent depth (⟨columnAt indent depth, c⟩ :: rows)
      (.clause c :: .indent :: (ms ++ [.dedent])) where
  head := by simp
  marks hrest := by
    cases rows with
    | nil => exact (hne rfl).elim
    | cons r rows =>
      rw [List.cons_append, marks?_stay, List.cons_append, hi.marks?_open (h.head r rfl),
        ← List.cons_append, h.marks hrest.succ, hi.marks?_close hrest]
      simp [Function.comp_def]

end Spans

end Marks

section Blocks

variable {ls ls' : Listing} {b b' b'' : Blocks}

-- Lines at a depth take some open blocks to others.
def Takes (indent : String) (depth : Nat) (ls : Listing) (b b' : Blocks) : Prop :=
  ∃ rows ms, ls.mapM (fun l => row? (l.render indent).toList) = some rows ∧
    Spans indent depth rows ms ∧ ms.foldlM Blocks.next? b = some b'

namespace Takes

theorem nil : Takes indent depth [] b b :=
  ⟨[], [], rfl, .nil, rfl⟩

theorem append (h : Takes indent depth ls b b') (h' : Takes indent depth ls' b' b'') :
    Takes indent depth (ls ++ ls') b b'' := by
  obtain ⟨rows, ms, hrows, hspans, hms⟩ := h
  obtain ⟨rows', ms', hrows', hspans', hms'⟩ := h'
  exact ⟨rows ++ rows', ms ++ ms', by simp [List.mapM_append, hrows, hrows'], hspans.append hspans',
    by simp [List.foldlM_append, hms, hms']⟩

theorem line (hi : IsIndent indent) {text : String} {c : Clause} (hline : Says text c)
    (hnext : b.next? (.clause c) = some b') : Takes indent depth [⟨depth, text⟩] b b' :=
  ⟨[⟨columnAt indent depth, c⟩], [.clause c], by simp [hi.row?_render hline], .clause c,
    by simp [hnext]⟩

-- A header and its block, which becomes one statement.
theorem block (hi : IsIndent indent) {text : String} {c : Clause} (hline : Says text c)
    {o : Opening} {outer : List (Opening × List Stmt)} {before ss : List Stmt}
    (hnext : b.next? (.clause c) = some ⟨outer, before, some o⟩) (hne : ls ≠ [])
    (h : Takes indent (depth + 1) ls ⟨(o, before) :: outer, [], none⟩
      ⟨(o, before) :: outer, ss.reverse, none⟩) :
    Takes indent depth (⟨depth, text⟩ :: ls) b ⟨outer, o.close ss :: before, none⟩ := by
  obtain ⟨rows, ms, hrows, hspans, hms⟩ := h
  have hrows_ne : rows ≠ [] := by
    cases ls with
    | nil => exact (hne rfl).elim
    | cons l ls =>
      simp only [List.mapM_cons, Option.bind_eq_bind, Option.bind_eq_some_iff] at hrows
      obtain ⟨r, -, rs, -, hrows⟩ := hrows
      cases hrows
      simp
  refine ⟨⟨columnAt indent depth, c⟩ :: rows, .clause c :: .indent :: (ms ++ [.dedent]), ?_,
    hspans.block hi c hrows_ne, ?_⟩
  case refine_1 => simp [hi.row?_render hline, hrows]
  case refine_2 =>
    have hindent : Blocks.next? ⟨outer, before, some o⟩ .indent =
        some ⟨(o, before) :: outer, [], none⟩ := rfl
    have hdedent : Blocks.next? ⟨(o, before) :: outer, ss.reverse, none⟩ .dedent =
        some ⟨outer, o.close ss :: before, none⟩ := by simp [Blocks.next?]
    simp [hnext, hindent, List.foldlM_append, hms, hdedent]

end Takes

-- Lines at a depth are read as statements, in any open blocks.
def Reads (indent : String) (depth : Nat) (ls : Listing) (ss : List Stmt) : Prop :=
  ∀ outer before, Takes indent depth ls ⟨outer, before, none⟩ ⟨outer, ss.reverse ++ before, none⟩

end Blocks

end Python

open Python

variable {indent : String} {d : Dialect} {depth : Nat}

theorem Python.block_ne_nil (depth : Nat) (ls : Listing) : Python.block depth ls ≠ [] := by
  unfold Python.block
  split <;> simp_all

theorem Stmt.python_ne_nil (depth : Nat) (s : Imp.Stmt) : s.python depth ≠ [] := by
  match s with
  | .declare .. | .assign .. | .loop .. | .branch _ _ none | .branch _ _ (some _) =>
    simp [Stmt.python]

namespace Program

theorem reads_suite {p : Program} (hi : IsIndent indent)
    (h : Reads indent depth (p.python depth) p.inPython) :
    Reads indent depth (Python.block depth (p.python depth)) (suite p.inPython) := by
  cases p with
  | nil => exact fun outer before => .line hi says_pass rfl
  | cons s p => simpa [Python.block, suite, inPython, Program.python, s.python_ne_nil] using h

theorem takes_block {p : Program} (hi : IsIndent indent)
    (h : Reads indent (depth + 1) (p.python (depth + 1)) p.inPython) {text : String} {c : Clause}
    (hline : Says text c) {b : Blocks} {outer : List (Opening × List Python.Stmt)}
    {before : List Python.Stmt} {o : Opening}
    (hnext : b.next? (.clause c) = some ⟨outer, before, some o⟩) :
    Takes indent depth (⟨depth, text⟩ :: Python.block (depth + 1) (p.python (depth + 1))) b
      ⟨outer, o.close (suite p.inPython) :: before, none⟩ := by
  have hbody := reads_suite hi h ((o, before) :: outer) []
  exact .block hi hline hnext (Python.block_ne_nil _ _) (by simpa using hbody)

theorem reads_cons {s : Imp.Stmt} {k : Program}
    (hs : ∀ outer before, Takes indent depth (s.python depth) ⟨outer, before, none⟩
      ⟨outer, s.inPython :: before, none⟩)
    (hk : Reads indent depth (k.python depth) k.inPython) :
    Reads indent depth (python depth (s :: k)) (inPython (s :: k)) := fun outer before => by
  simpa [python, inPython] using (hs outer before).append (hk outer _)

theorem reads {p : Program} (hi : IsIndent indent) (hp : ∀ s ∈ p.parts, s.Legible d)
    (depth : Nat) : Reads indent depth (p.python depth) p.inPython := by
  induction p using Program.induction generalizing depth with
  | nil => exact fun outer before => .nil
  | declare x e k ih | assign x e k ih =>
    simp only [parts, Stmt.parts, List.singleton_append, List.forall_mem_cons] at hp
    have ⟨hs, hk⟩ := hp
    have ⟨hx, hword⟩ := hs.target x rfl
    have he := hs.exprs e (by simp [Stmt.exprs])
    exact reads_cons (fun outer before => .line hi (says_assign hx hword he) rfl) (ih hk depth)
  | loop c b k ihb ihk =>
    simp only [parts, Stmt.parts, List.cons_append, List.forall_mem_cons,
      List.forall_mem_append] at hp
    have ⟨hs, hb, hk⟩ := hp
    refine reads_cons (fun outer before => ?_) (ihk hk depth)
    exact takes_block (o := .loop c.inPython) hi (ihb hb _) (says_loop hs.exprs) rfl
  | branch c t k iht ihk =>
    simp only [parts, Stmt.parts, List.cons_append, List.forall_mem_cons,
      List.forall_mem_append] at hp
    have ⟨hs, ht, hk⟩ := hp
    refine reads_cons (fun outer before => ?_) (ihk hk depth)
    exact takes_block (o := .branch c.inPython) hi (iht ht _) (says_branch hs.exprs) rfl
  | branchElse c t f k iht ihf ihk =>
    simp only [parts, Stmt.parts, List.cons_append, List.forall_mem_cons,
      List.forall_mem_append] at hp
    have ⟨hs, ⟨ht, hf⟩, hk⟩ := hp
    refine reads_cons (fun outer before => ?_) (ihk hk depth)
    have hif := says_branch hs.exprs
    refine (takes_block (o := .branch c.inPython) hi (iht ht _) hif rfl).append ?_
    exact takes_block (o := .otherwise c.inPython (suite t.inPython)) hi (ihf hf _) says_else rfl

-- The text is read as the program.
theorem read?_pythonText {p : Program} (hi : IsIndent indent) (hp : ∀ s ∈ p.parts, s.Legible d) :
    read? (p.pythonText indent) = some (suite p.inPython) := by
  obtain ⟨rows, ms, hrows, hspans, hms⟩ := reads_suite hi (reads hi hp 0) [] []
  have hmarks : marks? [0] rows = some ms := by
    have hend : Within indent 0 [] := by simp [Within]
    simpa [marks?, columnsAt, columnAt, Line.margin, column] using hspans.marks hend
  simp [read?, pythonText, rows?_render hrows, hmarks, Blocks.start, hms, Blocks.module?]

-- A line that goes back to where no block stands.
example : (read? "while x < 1:\n    x = 1\n  x = 2\n").isNone := by
  decide +kernel

end Program

end Imp
