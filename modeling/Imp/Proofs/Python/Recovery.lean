import Imp.Proofs.Python.Headings

/-!
A Python text determines its program, but for the word `var`: the blocks, which alternatives there
are, and all expressions can be told from the text.
-/

namespace Imp

open Python
open Token.Lexer (isWordChar)

mutual

-- A statement with assignments in place of declarations.
def Stmt.bare : Stmt → Stmt
  | .declare x e | .assign x e => .assign x e
  | .loop c b => .loop c (Program.bare b)
  | .branch c t none => .branch c (Program.bare t) none
  | .branch c t (some f) => .branch c (Program.bare t) (some (Program.bare f))

def Program.bare : Program → Program
  | [] => []
  | s :: p => s.bare :: Program.bare p

end

section Clauses

variable {d : Dialect}

theorem Expr.Writable.names {e : Expr} (he : e.Writable d) : ∀ x ∈ e.names, d.IsName x := by
  induction e with
  | num v => exact nofun
  | var x => exact List.forall_mem_singleton.mpr he
  | bin op l r ihl ihr => exact List.forall_mem_append.mpr ⟨ihl he.1, ihr he.2⟩

theorem Expr.text_injective {e f : Expr} (he : e.Writable d) (hf : f.Writable d)
    (h : e.text 0 = f.text 0) : e = f := by
  have hread := Dialect.parse_declaration d.isName_x he
  rw [h, Dialect.parse_declaration d.isName_x hf] at hread
  simpa [eq_comm] using hread

theorem Cond.text_injective {c c' : Cond} (hc : c.left.Writable d ∧ c.right.Writable d)
    (hc' : c'.left.Writable d ∧ c'.right.Writable d) (h : c.text = c'.text) : c = c' := by
  have hread := Dialect.parse_loop hc.1 hc.2
  rw [h, Dialect.parse_loop hc'.1 hc'.2] at hread
  simpa [eq_comm] using hread

namespace Stmt

namespace Clause

def Writable (d : Dialect) : Clause → Prop
  | binding x e => d.IsName x ∧ e.Writable d
  | loop test | branch test => test.left.Writable d ∧ test.right.Writable d

-- The word that a line starts with.
def word : Clause → String
  | binding x _ => x
  | loop _ => "while"
  | branch _ => "if"

theorem takeWhile_text {c : Clause} (hc : c.Writable d) :
    c.text.toList.takeWhile isWordChar = c.word.toList := by
  have hletters : ∀ w ∈ c.word.toList, isWordChar w := by
    cases c with
    | binding x e => exact List.all_eq_true.mp hc.1.letters
    | loop test | branch test => simp [word]; decide
  have ⟨rest, htext⟩ : ∃ rest, c.text.toList = c.word.toList ++ ' ' :: rest := by
    cases c <;> simp [text, word]
  rw [htext]
  exact (takeWhile_append_eq hletters (by simp; decide)).1

-- In the full dialect no name is a word that a header starts with.
theorem text_injective {c c' : Clause} (hc : c.Writable .full) (hc' : c'.Writable .full)
    (h : c.text = c'.text) : c = c' := by
  have hword : c.word = c'.word := by
    rw [← String.toList_inj, ← takeWhile_text hc, ← takeWhile_text hc', h]
  have hreserved : ∀ {x}, Dialect.full.IsName x → x ≠ "while" ∧ x ≠ "if" := fun hx =>
    ⟨by rintro rfl; exact hx.unreserved (by decide), by rintro rfl; exact hx.unreserved (by decide)⟩
  cases c <;> cases c'
  case binding.binding x e y f =>
    obtain rfl : x = y := hword
    obtain rfl := Expr.text_injective hc.2 hc'.2 (by simpa [text] using h)
    rfl
  case loop.loop | branch.branch =>
    obtain rfl := Cond.text_injective hc hc' (by simpa [text] using h)
    rfl
  case binding.loop => exact absurd hword (hreserved hc.1).1
  case binding.branch => exact absurd hword (hreserved hc.1).2
  case loop.binding => exact absurd hword.symm (hreserved hc'.1).1
  case branch.binding => exact absurd hword.symm (hreserved hc'.1).2
  case loop.branch | branch.loop => simp [word] at hword

end Clause

theorem Writable.mentions {s : Stmt} (h : s.Writable d) : ∀ x ∈ s.mentions, d.IsName x := by
  intro x hx
  cases List.mem_append.mp hx with
  | inl hx => exact h.target x (by simpa using hx)
  | inr hx =>
    have ⟨e, he, hx⟩ := List.mem_flatMap.mp hx
    exact (h.exprs e he).names x hx

theorem Writable.clause {s : Stmt} (h : s.Writable d) : s.clause.Writable d := by
  cases s with
  | declare x e | assign x e => exact ⟨h.target x rfl, h.exprs e (by simp [Stmt.exprs])⟩
  | loop test b => exact ⟨h.exprs _ (by simp [Stmt.exprs]), h.exprs _ (by simp [Stmt.exprs])⟩
  | branch test t f => exact ⟨h.exprs _ (by simp [Stmt.exprs]), h.exprs _ (by simp [Stmt.exprs])⟩

end Stmt

end Clauses

namespace Program

variable {d : Dialect} {p q k : Program} {depth : Nat} {rest rest' : Listing}

-- The lines go on further to the left.
def Behind (depth : Nat) (rest : Listing) : Prop :=
  ∀ l ∈ rest.head?, l.depth < depth

theorem behind_python (h : Behind depth rest) : Behind (depth + 1) (k.python depth ++ rest) := by
  cases k with
  | nil => exact fun l hl => Nat.lt_succ_of_lt (h l hl)
  | cons s k => simp [Behind, python, s.python_eq]

theorem behind_cons (text : String) : Behind (depth + 1) (⟨depth, text⟩ :: rest) := by
  simp [Behind]

-- What closes a statement at a depth: it is no line of its blocks, nor its alternative.
structure Closes (depth : Nat) (rest : Listing) : Prop where
  behind : Behind (depth + 1) rest
  not_else : ⟨depth, "else:"⟩ ∉ rest.head?

theorem closes_python (h : Behind depth rest) : Closes depth (k.python depth ++ rest) where
  behind := behind_python h
  not_else := by
    cases k with
    | nil => exact fun hl => Nat.lt_irrefl _ (h _ hl)
    | cons s k =>
      have hne : s.heading ≠ "else:" := Stmt.heading_ne (by decide)
      simp [python, s.python_eq, hne]

theorem Writable.mentions (h : p.Writable d) : ∀ x ∈ p.mentions, d.IsName x := by
  intro x hx
  have ⟨s, hs, hx⟩ := List.mem_flatMap.mp hx
  exact (h s hs).mentions x hx

theorem writable_cons {s : Stmt} (h : Writable d (s :: p)) :
    s.Writable d ∧ (∀ b ∈ s.blocks, Writable d b) ∧ p.Writable d := by
  simp only [Writable, parts, Stmt.parts_eq, List.cons_append, List.forall_mem_cons,
    List.forall_mem_append, List.mem_flatMap] at h
  exact ⟨h.1, fun b hb t ht => h.2.1 t ⟨b, hb, ht⟩, h.2.2⟩

-- The lines at a depth determine statements, whatever is behind them.
def Determined (p : Program) : Prop :=
  ∀ (q : Program) (depth : Nat) (rest rest' : Listing), q.Writable .full →
    Behind depth rest → Behind depth rest' →
    p.python depth ++ rest = q.python depth ++ rest' → p.bare = q.bare ∧ rest = rest'

-- The lines behind the heading of a statement determine its blocks, whatever is behind them.
def BlocksDetermined (s : Stmt) : Prop :=
  ∀ (t : Stmt) (depth : Nat) (rest rest' : Listing), s.clause = t.clause →
    (∀ b ∈ t.blocks, Writable .full b) → Closes depth rest → Closes depth rest' →
    s.body depth ++ rest = t.body depth ++ rest' → s.bare = t.bare ∧ rest = rest'

namespace Determined

theorem block (h : Determined p) (hq : q.Writable .full) (hrest : Behind depth rest)
    (hrest' : Behind depth rest')
    (heq : block depth (p.python depth) ++ rest = block depth (q.python depth) ++ rest') :
    p.bare = q.bare ∧ rest = rest' := by
  have hpass : ∀ s : Stmt, s.heading ≠ "pass" := fun s => Stmt.heading_ne (by decide)
  cases p <;> cases q
  case nil.nil => simpa [Python.block, python, bare] using heq
  case nil.cons t k' => simp [Python.block, python, t.python_eq, (hpass t).symm] at heq
  case cons.nil s k => simp [Python.block, python, s.python_eq, hpass s] at heq
  case cons.cons s k t k' =>
    exact h _ depth _ _ hq hrest hrest' (by simpa [Python.block, python, Stmt.python_eq] using heq)

theorem nil : Determined [] := by
  intro q depth rest rest' hq hrest hrest' heq
  cases q with
  | nil => exact ⟨rfl, heq⟩
  | cons t k =>
    obtain rfl : rest = _ := heq
    exact absurd (hrest ⟨depth, t.heading⟩ (by simp [python, t.python_eq])) (Nat.lt_irrefl _)

theorem cons {s : Stmt} (hs : s.Writable .full) (hblocks : BlocksDetermined s)
    (hk : Determined k) : Determined (s :: k) := by
  intro q depth rest rest' hq hrest hrest' heq
  cases q with
  | nil =>
    obtain rfl : _ = rest' := heq
    exact absurd (hrest' ⟨depth, s.heading⟩ (by simp [python, s.python_eq])) (Nat.lt_irrefl _)
  | cons t k' =>
    obtain ⟨ht, hwritable, hk'⟩ := writable_cons hq
    simp only [python, Stmt.python_eq, List.cons_append, List.append_assoc, List.cons.injEq,
      Line.mk.injEq, true_and] at heq
    have hclause := Stmt.Clause.text_injective hs.clause ht.clause heq.1
    obtain ⟨hbare, hrests⟩ :=
      hblocks _ _ _ _ hclause hwritable (closes_python hrest) (closes_python hrest') heq.2
    obtain ⟨hbares, hrest⟩ := hk _ _ _ _ hk' hrest hrest' hrests
    exact ⟨by simp [bare, hbare, hbares], hrest⟩

end Determined

theorem blocksDetermined_loop {c : Cond} {b : Program} (hb : Determined b) :
    BlocksDetermined (.loop c b) := by
  intro t depth rest rest' hclause hwritable hrest hrest' heq
  cases t <;> simp only [Stmt.clause, reduceCtorEq, Stmt.Clause.loop.injEq] at hclause
  case loop c' b' =>
    obtain ⟨hbare, hrests⟩ := hb.block (hwritable b' (.head _)) hrest.behind hrest'.behind heq
    exact ⟨by simp [Stmt.bare, hclause, hbare], hrests⟩

theorem blocksDetermined_branch {c : Cond} {t : Program} {f : Option Program} (ht : Determined t)
    (hf : ∀ b ∈ f, Determined b) : BlocksDetermined (.branch c t f) := by
  intro s depth rest rest' hclause hwritable hrest hrest' heq
  cases s <;> simp only [Stmt.clause, reduceCtorEq, Stmt.Clause.branch.injEq] at hclause
  case branch c' t' f' =>
    cases f <;> cases f' <;> simp only [Stmt.body, List.append_assoc, List.cons_append] at heq
    case none.none =>
      obtain ⟨hbare, hrests⟩ := ht.block (hwritable t' (.head _)) hrest.behind hrest'.behind heq
      exact ⟨by simp [Stmt.bare, hclause, hbare], hrests⟩
    -- With an alternative on one side only, its `else:` would stand behind the other statement.
    case none.some f' =>
      obtain ⟨_, helse⟩ := ht.block (hwritable t' (.head _)) hrest.behind (behind_cons _) heq
      exact absurd (by simp [helse]) hrest.not_else
    case some.none f =>
      obtain ⟨_, helse⟩ := ht.block (hwritable t' (.head _)) (behind_cons _) hrest'.behind heq
      exact absurd (by simp [← helse]) hrest'.not_else
    case some.some f f' =>
      obtain ⟨hbare, helse⟩ :=
        ht.block (hwritable t' (.head _)) (behind_cons _) (behind_cons _) heq
      obtain ⟨hbare', hrests⟩ := (hf f rfl).block (hwritable f' (.tail _ (.head _))) hrest.behind
        hrest'.behind (List.cons.inj helse).2
      exact ⟨by simp [Stmt.bare, hclause, hbare, hbare'], hrests⟩

theorem blocksDetermined_binding {s : Stmt} {x : String} {e : Expr}
    (hs : s.clause = .binding x e) : BlocksDetermined s := by
  intro t depth rest rest' hclause hwritable hrest hrest' heq
  rw [hs] at hclause
  cases s <;> cases t <;>
    simp only [Stmt.clause, reduceCtorEq, Stmt.Clause.binding.injEq] at hs hclause
  all_goals exact ⟨by simp [Stmt.bare, hs, hclause], heq⟩

-- The induction is on the first program. The second one is taken apart by what its headings say,
-- which are those of the first.
theorem determined (hp : p.Writable .full) : Determined p := by
  induction p using Program.induction with
  | nil => exact .nil
  | declare x e k ih | assign x e k ih =>
    obtain ⟨hs, _, hk⟩ := writable_cons hp
    exact .cons hs (blocksDetermined_binding rfl) (ih hk)
  | loop c b k ihb ih =>
    obtain ⟨hs, hb, hk⟩ := writable_cons hp
    exact .cons hs (blocksDetermined_loop (ihb (hb b (.head _)))) (ih hk)
  | branch c t k iht ih =>
    obtain ⟨hs, ht, hk⟩ := writable_cons hp
    exact .cons hs (blocksDetermined_branch (iht (ht t (.head _))) nofun) (ih hk)
  | branchElse c t f k iht ihf ih =>
    obtain ⟨hs, hb, hk⟩ := writable_cons hp
    have hf : Determined f := ihf (hb f (.tail _ (.head _)))
    exact .cons hs (blocksDetermined_branch (iht (hb t (.head _))) (by simpa using hf)) (ih hk)

theorem python_bare (p : Program) (depth : Nat) : p.bare.python depth = p.python depth := by
  induction p using Program.induction generalizing depth with
  | nil => rfl
  | declare x e k ih | assign x e k ih => simp [bare, Stmt.bare, python, Stmt.python, ih]
  | loop c b k ihb ih => simp [bare, Stmt.bare, python, Stmt.python, ihb, ih]
  | branch c t k iht ih => simp [bare, Stmt.bare, python, Stmt.python, iht, ih]
  | branchElse c t f k iht ihf ih => simp [bare, Stmt.bare, python, Stmt.python, iht, ihf, ih]

variable {indent source source' : String}

theorem listing_of_pythonText (hi : IsIndent indent) (hp : ∀ x ∈ p.mentions, d.IsName x)
    (hq : ∀ x ∈ q.mentions, d.IsName x) (h : p.pythonText indent = q.pythonText indent) :
    block 0 (p.python 0) = block 0 (q.python 0) := by
  have hlines : (block 0 (p.python 0)).map (fun l => (columnAt indent l.depth, l.text)) =
      (block 0 (q.python 0)).map fun l => (columnAt indent l.depth, l.text) := by
    rw [← lines_pythonText hi.blank hp, h, lines_pythonText hi.blank hq]
  refine (List.map_inj_right ?_).mp hlines
  rintro ⟨depth, text⟩ ⟨depth', text'⟩ heq
  obtain ⟨hcolumn, rfl⟩ := Prod.mk.inj heq
  obtain rfl := hi.strictMono_columnAt.injective hcolumn
  rfl

-- Two programs that are read from texts have the same Python text if and only if they are the same
-- but for the word `var`.
theorem pythonText_eq_iff (hi : IsIndent indent) (hp : Dialect.full.parse source = .ok p)
    (hq : Dialect.full.parse source' = .ok q) :
    p.pythonText indent = q.pythonText indent ↔ p.bare = q.bare := by
  have hp := Dialect.writable_of_parse hp
  have hq := Dialect.writable_of_parse hq
  constructor
  case mp =>
    intro h
    have hlisting := listing_of_pythonText hi hp.mentions hq.mentions h
    have hend : Behind 0 [] := by simp [Behind]
    exact ((determined hp).block hq hend hend (by simpa using hlisting)).1
  case mpr =>
    intro h
    rw [pythonText, ← python_bare p, h, python_bare, pythonText]

-- The placeholder of an empty block beside a variable of that name, with and without an empty
-- alternative.
theorem placeholder_pythonText : ∃ p q r,
    Dialect.full.parse "var pass = 1; if (pass > 0) \x7b\x7d else \x7b\x7d" = .ok p ∧
    Dialect.full.parse "pass = 1; if (pass > 0) \x7b\x7d else \x7b\x7d" = .ok q ∧
    Dialect.full.parse "pass = 1; if (pass > 0) \x7b\x7d" = .ok r ∧ p ≠ q ∧
    p.pythonText "\t" = q.pythonText "\t" ∧ q.pythonText "\t" ≠ r.pythonText "\t" := by
  have hi : IsIndent "\t" := ⟨by decide, by decide⟩
  let test : Cond := ⟨.gt, .var "pass", .num 0⟩
  have hp : Dialect.full.parse "var pass = 1; if (pass > 0) \x7b\x7d else \x7b\x7d" =
      .ok [.declare "pass" (.num 1), .branch test [] (some [])] := by decide +kernel
  have hq : Dialect.full.parse "pass = 1; if (pass > 0) \x7b\x7d else \x7b\x7d" =
      .ok [.assign "pass" (.num 1), .branch test [] (some [])] := by decide +kernel
  have hr : Dialect.full.parse "pass = 1; if (pass > 0) \x7b\x7d" =
      .ok [.assign "pass" (.num 1), .branch test [] none] := by decide +kernel
  have hbare : ¬bare [.assign "pass" (.num 1), .branch test [] (some [])] =
      bare [.assign "pass" (.num 1), .branch test [] none] := by decide
  exact ⟨_, _, _, hp, hq, hr, by decide, (pythonText_eq_iff hi hp hq).mpr rfl,
    (pythonText_eq_iff hi hq hr).not.mpr hbare⟩

end Program

end Imp
