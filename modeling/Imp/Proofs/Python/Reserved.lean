import Imp.Proofs.Parser.Descent
import Imp.Proofs.Python.Recovery

/-!
Which Python texts have a reading. The names of a program are written as they stand in its source,
those that Python reserves among them: a line with such a name is no line of Python, or says
something else with it, as with `not`.
-/

namespace Imp

open Parser.Descent (ident?)
open Token (Kind)

namespace Grammar

variable {d : Dialect} {level : Level} {ks : List Kind} {e : Expr} {s : Stmt} {p : Program}

theorem names_fold (e : Expr) (links : List Link) :
    (fold e links).names = e.names ++ links.flatMap fun l => l.tree.names := by
  induction links generalizing e with
  | nil => simp [fold]
  | cons l links ih =>
    rw [fold, List.foldl_cons, ← fold, ih, List.flatMap_cons, ← List.append_assoc]
    rfl

theorem filterMap_spelled {links : List Link}
    (h : ∀ l ∈ links, l.tree.names = l.kinds.filterMap ident?) :
    (links.flatMap Link.spelled).filterMap ident? = links.flatMap fun l => l.tree.names := by
  induction links with
  | nil => rfl
  | cons l links ih =>
    rw [List.forall_mem_cons] at h
    rw [List.flatMap_cons, List.flatMap_cons, List.filterMap_append, ih h.2, h.1]
    rfl

-- The names in an expression are its identifiers, in their order.
theorem Derives.names_eq (h : Derives level ks e) : e.names = ks.filterMap ident? := by
  induction h with
  | number v | name x => rfl
  | @parens ks e _ ih =>
    have hkinds : (Kind.openParen :: (ks ++ [.closeParen])).filterMap ident? =
        ks.filterMap ident? ++ [] := List.filterMap_append
    rw [hkinds, List.append_nil, ih]
  | term _ _ _ ih ihs | arith _ _ _ ih ihs =>
    rw [names_fold, List.filterMap_append, filterMap_spelled ihs, ih]

theorem Condition.names_eq {c : Cond} (h : Condition ks c) :
    c.left.names ++ c.right.names = ks.filterMap ident? := by
  cases h with
  | mk rel left right =>
    rw [left.names_eq, right.names_eq, List.filterMap_append]
    rfl

theorem filterMap_around {k : Kind} (hk : ident? k = none) (ks ls : List Kind) :
    (ks ++ k :: ls).filterMap ident? = ks.filterMap ident? ++ ls.filterMap ident? := by
  rw [List.filterMap_append, List.filterMap_cons_none hk]

theorem filterMap_assignment (x : String) (ks : List Kind) :
    (.ident x :: .assign :: (ks ++ [.semicolon])).filterMap ident? = x :: ks.filterMap ident? := by
  have hvalue : (ks ++ [Kind.semicolon]).filterMap ident? = ks.filterMap ident? ++ [] :=
    filterMap_around rfl ks []
  rw [List.append_nil] at hvalue
  exact congrArg (x :: ·) hvalue

-- The identifiers in front of a block and in it.
theorem filterMap_block {k : Kind} (hk : ident? k = none) (ks bs rest : List Kind) :
    (k :: .openParen :: (ks ++ .closeParen :: .openBrace ::
      (bs ++ .closeBrace :: rest))).filterMap ident? =
      ks.filterMap ident? ++ (bs.filterMap ident? ++ rest.filterMap ident?) := by
  rw [← filterMap_around (k := .closeBrace) rfl bs rest, List.filterMap_cons_none hk]
  exact filterMap_around (k := .closeParen) rfl ks _

theorem mentions_loop (test : Cond) (b : Program) :
    (Stmt.loop test b).mentions = test.left.names ++ test.right.names := by
  simp [Stmt.mentions, Stmt.target?, Stmt.exprs]

theorem mentions_branch (test : Cond) (t : Program) (f : Option Program) :
    (Stmt.branch test t f).mentions = test.left.names ++ test.right.names := by
  simp [Stmt.mentions, Stmt.target?, Stmt.exprs]

mutual

theorem Statement.mentions_eq {ks : List Kind} {s : Stmt} (h : Statement d ks s) :
    s.parts.flatMap Stmt.mentions = ks.filterMap ident? := by
  cases h with
  | @declare ks e x value =>
    rw [List.filterMap_cons_none (by rfl), filterMap_assignment, ← value.names_eq]
    simp [Stmt.parts, Stmt.mentions, Stmt.target?, Stmt.exprs]
  | @assign ks e x value =>
    rw [filterMap_assignment, ← value.names_eq]
    simp [Stmt.parts, Stmt.mentions, Stmt.target?, Stmt.exprs]
  | @loop ks bs test b condition body =>
    rw [filterMap_block rfl, ← Condition.names_eq condition, ← Statements.mentions_eq body,
      List.filterMap_nil, List.append_nil, Stmt.parts, List.flatMap_cons, mentions_loop]
    rfl
  | @branch ks ts test t has condition consequent =>
    rw [filterMap_block rfl, ← Condition.names_eq condition, ← Statements.mentions_eq consequent,
      List.filterMap_nil, List.append_nil, Stmt.parts, List.flatMap_cons, mentions_branch]
    rfl
  | @branchElse ks ts fs test t f has condition consequent alternate =>
    have halternate : (Kind.elseWord :: .openBrace :: (fs ++ [.closeBrace])).filterMap ident? =
        fs.filterMap ident? ++ [] := filterMap_around (k := .closeBrace) rfl fs []
    rw [filterMap_block rfl, halternate, ← Condition.names_eq condition,
      ← Statements.mentions_eq consequent, ← Statements.mentions_eq alternate, List.append_nil,
      Stmt.parts, List.flatMap_cons, mentions_branch, List.flatMap_append]
    rfl

theorem Statements.mentions_eq {ks : List Kind} {p : Program} (h : Statements d ks p) :
    p.mentions = ks.filterMap ident? := by
  cases h with
  | nil => rfl
  | cons head tail =>
    rw [List.filterMap_append, ← Statement.mentions_eq head, ← Statements.mentions_eq tail,
      Program.mentions, Program.parts, List.flatMap_append]
    rfl

end

end Grammar

namespace Python

variable {t u : Token} {ts : List Token} {x : String}

-- A token that no expression and no comparison has.
inductive Foreign : Token → Prop
  | keyword (w : String) : Foreign (.keyword w)
  | assign : Foreign .assign

theorem Foreign.next? (ht : Foreign t) (r : Reading) : r.next? t = none := by
  cases ht <;> cases r <;> rfl

theorem Foreign.expr? (ht : Foreign t) (hmem : t ∈ ts) : expr? ts = none := by
  have hfold : ∀ r : Reading, ts.foldlM Reading.next? r = none := by
    induction ts with
    | nil => nomatch hmem
    | cons u ts ih =>
      intro r
      obtain rfl | hmem := List.mem_cons.mp hmem
      case inl => rw [List.foldlM_cons, ht.next?, Option.bind_eq_bind, Option.bind_none]
      case inr =>
        rw [List.foldlM_cons]
        cases r.next? u with
        | none => rfl
        | some r' => exact ih hmem r'
  rw [Python.expr?, hfold]
  rfl

theorem Foreign.test? (ht : Foreign t) (hmem : t ∈ ts) : test? ts = none := by
  unfold Python.test?
  split
  case h_2 => rfl
  case h_1 r rs hrest =>
    rw [← @List.takeWhile_append_dropWhile _ (!·.isRelation) ts, hrest, List.mem_append] at hmem
    obtain hmem | hmem := hmem
    case inl => rw [ht.expr? hmem]; rfl
    case inr =>
      obtain rfl | hmem := List.mem_cons.mp hmem
      case inl => nomatch ht
      case inr =>
        rw [ht.expr? hmem]
        cases Python.expr? _ <;> rfl

theorem Foreign.header? (ht : Foreign t) (hmem : t ∈ ts) : header? ts = none := by
  unfold Python.header?
  split
  case isFalse => rfl
  case isTrue hlast =>
    obtain ⟨us, rfl⟩ := List.getLast?_eq_some_iff.mp hlast
    rw [List.dropLast_concat]
    obtain hmem | hmem := List.mem_append.mp hmem
    case inl => exact ht.test? hmem
    case inr =>
      cases List.mem_singleton.mp hmem
      nomatch ht

-- A line has keywords at its head only.
theorem clause?_of_keyword_mem {w : String} (hmem : .keyword w ∈ ts) :
    clause? (u :: ts) = none := by
  have hw := Foreign.keyword w
  unfold clause?
  split
  case h_1 hts =>
    obtain ⟨-, rfl⟩ := List.cons.inj hts
    nomatch hmem
  case h_2 hts =>
    obtain ⟨-, rfl⟩ := List.cons.inj hts
    simp at hmem
  case h_3 hts | h_4 hts =>
    obtain ⟨-, rfl⟩ := List.cons.inj hts
    rw [hw.header? hmem]
    rfl
  case h_5 hts =>
    obtain ⟨-, rfl⟩ := List.cons.inj hts
    rw [hw.expr? (List.mem_of_ne_of_mem (by simp) hmem)]
    rfl
  case h_6 => rfl

-- No keyword is assigned to.
theorem clause?_keyword_assign (w : String) (ts : List Token) :
    clause? (.keyword w :: .assign :: ts) = none := by
  have hheader : header? (.assign :: ts) = none := Foreign.assign.header? List.mem_cons_self
  unfold clause?
  split
  case h_1 heq | h_2 heq | h_5 heq => nomatch heq
  case h_3 heq | h_4 heq =>
    obtain ⟨-, rfl⟩ := List.cons.inj heq
    rw [hheader]
    rfl
  case h_6 => rfl

theorem word_of_mem (hx : x ∈ keywords) : word x.toList = .keyword x := by
  simp [word, hx]

theorem word_mem_wordTokens {e : Imp.Expr} (hx : x ∈ e.names) (outer : Nat) :
    word x.toList ∈ e.wordTokens outer := by
  induction e generalizing outer with
  | num v => nomatch hx
  | var y =>
    rw [List.mem_singleton.mp hx]
    exact List.mem_singleton_self _
  | bin op l r ihl ihr =>
    have hinner : word x.toList ∈ l.wordTokens op.precedence ++
        .operator op :: r.wordTokens (op.precedence + 1) := by
      obtain hx | hx := List.mem_append.mp hx
      case inl => exact List.mem_append_left _ (ihl hx _)
      case inr => exact List.mem_append_right _ (List.mem_cons_of_mem _ (ihr hx _))
    simp only [Imp.Expr.wordTokens]
    split
    case isTrue => exact List.mem_cons_of_mem _ (List.mem_append_left _ hinner)
    case isFalse => exact hinner

theorem word_mem_condTokens {c : Cond} (hx : x ∈ c.left.names ++ c.right.names) :
    word x.toList ∈ c.wordTokens := by
  obtain hx | hx := List.mem_append.mp hx
  case inl => exact List.mem_append_left _ (word_mem_wordTokens hx 0)
  case inr => exact List.mem_append_right _ (List.mem_cons_of_mem _ (word_mem_wordTokens hx 0))

end Python

open Python

namespace Stmt

variable {d : Dialect} {s : Stmt}

-- The names in the line of a statement stand behind its first token, or in front of `=`.
theorem exists_tokens_heading (hs : s.Writable d) :
    ∃ t ts, tokens? s.heading.toList = some (t :: ts) ∧
      ∀ x ∈ s.mentions, word x.toList ∈ ts ∨ t = word x.toList ∧ ∃ us, ts = .assign :: us := by
  cases s with
  | declare x e | assign x e =>
    have hx : d.IsName x := hs.target x rfl
    refine ⟨_, _, tokens?_assignment hx (hs.exprs e List.mem_cons_self), fun y hy => ?_⟩
    obtain rfl | hy : y = x ∨ y ∈ e.names := by simpa [mentions, target?, exprs] using hy
    case inl => exact .inr ⟨rfl, _, rfl⟩
    case inr => exact .inl (List.mem_cons_of_mem _ (word_mem_wordTokens hy 0))
  | loop test b =>
    refine ⟨_, _, tokens?_header (k := "while") (by decide) hs.exprs, fun y hy => ?_⟩
    rw [Grammar.mentions_loop] at hy
    exact .inl (List.mem_append_left _ (word_mem_condTokens hy))
  | branch test t f =>
    refine ⟨_, _, tokens?_header (k := "if") (by decide) hs.exprs, fun y hy => ?_⟩
    rw [Grammar.mentions_branch] at hy
    exact .inl (List.mem_append_left _ (word_mem_condTokens hy))

-- The line of a statement is read if, and only if, no name in it is reserved in Python.
theorem says_heading_iff (hs : s.Writable d) :
    (∃ c, Says s.heading c) ↔ ∀ x ∈ s.mentions, x ∉ keywords := by
  constructor
  case mp =>
    rintro ⟨c, -, hclause⟩ x hx hk
    obtain ⟨t, ts, htokens, hwords⟩ := exists_tokens_heading hs
    rw [htokens, Option.bind_some] at hclause
    have hx := hwords x hx
    rw [word_of_mem hk] at hx
    obtain hmem | ⟨rfl, us, rfl⟩ := hx
    case inl => nomatch (clause?_of_keyword_mem hmem).symm.trans hclause
    case inr => nomatch (clause?_keyword_assign x us).symm.trans hclause
  case mpr =>
    intro hk
    have hl := hs.legible hk
    cases s with
    | declare x e | assign x e =>
      obtain ⟨hx, hword⟩ := hl.target x rfl
      exact ⟨_, says_assign hx hword (hl.exprs e List.mem_cons_self)⟩
    | loop test b => exact ⟨_, says_loop hl.exprs⟩
    | branch test t f => exact ⟨_, says_branch hl.exprs⟩

-- The line of a statement has more than blanks.
theorem not_blank_heading (hs : ∀ x ∈ s.mentions, d.IsName x) :
    ¬s.heading.toList.all isBlank := by
  have hhead := (flush_heading hs).head
  intro hblank
  cases hline : s.heading.toList with
  | nil => nomatch hline ▸ s.space_mem_heading
  | cons c cs =>
    rw [hline] at hhead hblank
    exact hhead c rfl (List.all_eq_true.mp hblank c List.mem_cons_self)

end Stmt

namespace Python

variable {indent : String} {ls : Listing} {l : Line} {rows : List Row}

theorem exists_of_mapM {α β : Type} {f : α → Option β} {xs : List α} {ys : List β} {x : α}
    (h : xs.mapM f = some ys) (hx : x ∈ xs) : ∃ y, f x = some y := by
  induction xs generalizing ys with
  | nil => nomatch hx
  | cons x' xs ih =>
    simp only [List.mapM_cons, Option.bind_eq_bind, Option.bind_eq_some_iff] at h
    obtain ⟨y, hy, ys, hys, -⟩ := h
    obtain rfl | hx := List.mem_cons.mp hx
    case inl => exact ⟨y, hy⟩
    case inr => exact ih hys hx

-- A line that is read says something.
theorem says_of_row? {r : Row} (hi : indent.toList.all isBlank) (hl : Flush l.text)
    (h : row? (l.render indent).toList = some r) : Says l.text r.clause := by
  have ⟨htake, hdrop⟩ :=
    takeWhile_append_eq (List.all_eq_true.mp (margin_blank hi l.depth)) hl.head
  rw [Line.render, String.toList_append, row?, htake, hdrop] at h
  simp only [Option.bind_eq_bind, Option.bind_eq_some_iff] at h
  obtain ⟨ts, hts, c, hc, hr⟩ := h
  refine ⟨hl.head, ?_⟩
  rw [hts, Option.bind_some, hc, ← Option.some.inj hr]

-- In a text that is read, every line but blank ones is read.
theorem says_of_rows? (hi : indent.toList.all isBlank) (hls : ∀ l ∈ ls, Flush l.text)
    (h : rows? (ls.render indent).toList = some rows) (hl : l ∈ ls)
    (hblank : ¬l.text.toList.all isBlank) : ∃ c, Says l.text c := by
  have hnewline : '\n' ∉ indent.toList := fun h =>
    absurd (List.all_eq_true.mp hi _ h) (by decide)
  rw [rows?, splitOn_render hnewline hls] at h
  have hmem : (l.render indent).toList ∈
      (ls.map (fun l : Line => (l.render indent).toList) ++ [[]]).filter
        fun cs : List Char => !cs.all isBlank := by
    refine List.mem_filter.mpr ⟨List.mem_append_left _ (List.mem_map_of_mem hl), ?_⟩
    rw [Line.render, String.toList_append, List.all_append, Bool.not_eq_true',
      Bool.and_eq_false_iff]
    exact .inr (Bool.eq_false_iff.mpr hblank)
  obtain ⟨r, hr⟩ := exists_of_mapM h hmem
  exact ⟨r.clause, says_of_row? hi (hls l hl) hr⟩

end Python

namespace Program

variable {d : Dialect} {indent text : String} {p : Program}

theorem mentions_eq_idents (ht : d.parse text = .ok p) :
    ∃ ts, d.tokens text = .ok ts ∧ p.mentions = (Dialect.kinds ts).filterMap ident? := by
  obtain ⟨ts, hts, hp⟩ := Dialect.parse_eq_ok_iff.mp ht
  exact ⟨ts, hts, Grammar.Statements.mentions_eq hp⟩

theorem says_headings_iff (hp : p.Writable d) :
    (∀ s ∈ p.parts, ∃ c, Says s.heading c) ↔ ∀ x ∈ p.mentions, x ∉ keywords := by
  simp only [mentions, List.mem_flatMap]
  constructor
  case mp =>
    rintro h x ⟨s, hs, hx⟩
    exact (Stmt.says_heading_iff (hp s hs)).mp (h s hs) x hx
  case mpr =>
    intro h s hs
    exact (Stmt.says_heading_iff (hp s hs)).mpr fun x hx => h x ⟨s, hs, hx⟩

theorem says_lines_iff (hi : indent.toList.all isBlank) (hp : p.Writable d) :
    (∀ l ∈ lines (p.pythonText indent), ∃ c, Says l.2 c) ↔
      ∀ s ∈ p.parts, ∃ c, Says s.heading c := by
  have hheadings := headings_pythonText hi hp.mentions
  constructor
  case mp =>
    intro h s hs
    have hmem : s.heading ∈ headings (p.pythonText indent) :=
      hheadings ▸ List.mem_map_of_mem hs
    obtain ⟨l, hl, heq⟩ := List.mem_map.mp (List.mem_filter.mp hmem).1
    exact heq ▸ h l hl
  case mpr =>
    intro h l hl
    by_cases hheading : isHeading l.2
    case pos =>
      have hmem : l.2 ∈ headings (p.pythonText indent) :=
        List.mem_filter.mpr ⟨List.mem_map_of_mem hl, hheading⟩
      rw [hheadings] at hmem
      obtain ⟨s, hs, heq⟩ := List.mem_map.mp hmem
      exact heq ▸ h s hs
    case neg =>
      have htext : l.2 = "pass" ∨ l.2 = "else:" := by
        simpa [isHeading, Decidable.or_iff_not_imp_left] using hheading
      exact htext.elim (fun h => ⟨_, h ▸ says_pass⟩) fun h => ⟨_, h ▸ says_else⟩

theorem read?_iff (hi : IsIndent indent) (hp : p.Writable d) :
    (∃ ss, read? (p.pythonText indent) = some ss) ↔ ∀ x ∈ p.mentions, x ∉ keywords := by
  constructor
  case mp =>
    rintro ⟨ss, hread⟩
    refine (says_headings_iff hp).mp fun s hs => ?_
    obtain ⟨rows, hrows⟩ : ∃ rows, rows? (p.pythonText indent).toList = some rows := by
      cases hrows : rows? (p.pythonText indent).toList with
      | none => simp [read?, hrows] at hread
      | some rows => exact ⟨rows, rfl⟩
    have hmem : s.heading ∈ ((block 0 (p.python 0)).map Line.text).filter isHeading := by
      rw [filter_block, filter_python]
      exact List.mem_map_of_mem hs
    obtain ⟨l, hl, heq⟩ := List.mem_map.mp (List.mem_filter.mp hmem).1
    rw [← heq]
    exact says_of_rows? hi.blank (flush_of_mem_block hp.mentions) hrows hl
      (heq ▸ Stmt.not_blank_heading (hp s hs).mentions)
  case mpr =>
    intro hk
    have hl : ∀ s ∈ p.parts, s.Legible d := fun s hs =>
      (hp s hs).legible fun x hx => hk x (List.mem_flatMap.mpr ⟨s, hs, hx⟩)
    exact ⟨_, read?_pythonText hi hl⟩

-- Every word of Python that the dialect does not reserve can be a name.
theorem isName_of_keyword {x : String} (hx : x ∈ keywords) (hd : x ∉ d.reserved) : d.IsName x := by
  have hwords : ∀ x ∈ keywords, x ≠ "" ∧ x.toList.all Token.Lexer.isWordChar := by decide
  exact ⟨(hwords x hx).1, (hwords x hx).2, hd⟩

theorem unread_declaration {x : String} {e : Expr} (hi : IsIndent indent) (hx : x ∈ keywords)
    (hd : x ∉ d.reserved) (he : e.Writable d) :
    d.parse ("var " ++ x ++ " = " ++ e.text 0 ++ ";") = .ok [.declare x e] ∧
      read? (pythonText indent [.declare x e]) = none := by
  have hparse := Dialect.parse_declaration (isName_of_keyword hx hd) he
  refine ⟨hparse, Option.eq_none_iff_forall_ne_some.mpr fun ss hread => ?_⟩
  exact (read?_iff hi (Dialect.writable_of_parse hparse)).mp ⟨ss, hread⟩ x
    (List.mem_flatMap.mpr ⟨_, List.mem_cons_self, List.mem_cons_self⟩) hx

-- The names that a text is written with are all identifiers of the source, in their order, and no
-- others. The words that the dialect reserves are not among them, but those of Python can be, and
-- exactly then there is a line, its own, without a reading.
theorem read_iff_unreserved (hi : IsIndent indent) (ht : d.parse text = .ok p) :
    (∃ ts, d.tokens text = .ok ts ∧ p.mentions = (Dialect.kinds ts).filterMap ident?) ∧
      (∀ x ∈ p.mentions, x ∉ d.reserved) ∧
      headings (p.pythonText indent) = p.parts.map Stmt.heading ∧
      (∀ s ∈ p.parts, (∃ c, Says s.heading c) ↔ ∀ x ∈ s.mentions, x ∉ keywords) ∧
      ((∀ l ∈ lines (p.pythonText indent), ∃ c, Says l.2 c) ↔ ∀ x ∈ p.mentions, x ∉ keywords) ∧
      ((∃ ss, read? (p.pythonText indent) = some ss) ↔ ∀ x ∈ p.mentions, x ∉ keywords) := by
  have hp := Dialect.writable_of_parse ht
  refine ⟨mentions_eq_idents ht, fun x hx => (hp.mentions x hx).unreserved,
    headings_pythonText hi.blank hp.mentions, fun s hs => Stmt.says_heading_iff (hp s hs), ?_,
    read?_iff hi hp⟩
  exact (says_lines_iff hi.blank hp).trans (says_headings_iff hp)

-- A word of conditionals as a name, where there are none.
def borrowed : Program :=
  [.declare "if" (.num 3), .loop ⟨.gt, .var "if", .num 0⟩
    [.assign "n" (.bin .mul (.var "if") (.num 2)), .assign "if" (.bin .sub (.var "if") (.num 1))]]

theorem borrowed_read_iff_unreserved :
    Dialect.loop.parse "var if = 3; while (if > 0) \x7b n = if * 2; if = if - 1; \x7d" =
        .ok borrowed ∧
      (¬∃ c, Says "n = if * 2" c) ∧ read? (borrowed.pythonText "\t") = none := by
  have ht : Dialect.loop.parse
      "var if = 3; while (if > 0) \x7b n = if * 2; if = if - 1; \x7d" = .ok borrowed := by
    decide +kernel
  have hi : IsIndent "\t" := ⟨by decide, by decide⟩
  have ⟨_, _, _, hline, _, hread⟩ := read_iff_unreserved hi ht
  refine ⟨ht, fun hc => ?_, Option.eq_none_iff_forall_ne_some.mpr fun ss hss => ?_⟩
  · exact (hline (.assign "n" (.bin .mul (.var "if") (.num 2))) (by decide)).mp hc "if"
      (by decide) (by decide)
  · exact hread.mp ⟨ss, hss⟩ "if" (by decide) (by decide)

-- A source that is accepted, and its text is none of Python.
theorem class_unread :
    ∃ p, Dialect.full.parse "var class = 1;" = .ok p ∧ "class" ∈ p.mentions ∧
      "class" ∈ keywords ∧ p.pythonText defaultIndent = "class = 1\n" ∧
      (¬∃ c, Says "class = 1" c) ∧ read? "class = 1\n" = none := by
  have hclass : (tokens? "class = 1".toList).bind clause? = none := by decide +kernel
  refine ⟨[.declare "class" (.num 1)], by decide +kernel, by decide, by decide, by decide, ?_,
    by decide +kernel⟩
  rintro ⟨c, hc⟩
  nomatch hclass.symm.trans hc.clause

end Program

end Imp
