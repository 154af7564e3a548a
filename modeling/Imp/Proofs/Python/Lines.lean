import Imp.Proofs.Python.Syntax
import Imp.Proofs.Writable

/-!
What the lines of a program's Python text say.
-/

namespace Imp

open Token.Lexer (isWordChar)

section InPython

open Python

-- What can be written, with names that are names in Python as well.
structure Expr.Legible (d : Dialect) (e : Imp.Expr) : Prop where
  writable : e.Writable d
  names : ∀ x ∈ e.names, x ∉ keywords

structure Stmt.Legible (d : Dialect) (s : Imp.Stmt) : Prop where
  target : ∀ x ∈ s.target?, d.IsName x ∧ x ∉ keywords
  exprs : ∀ e ∈ s.exprs, e.Legible d

theorem Stmt.Writable.legible {d : Dialect} {s : Imp.Stmt} (h : s.Writable d)
    (hk : ∀ x ∈ s.mentions, x ∉ keywords) : s.Legible d where
  target x hx := ⟨h.target x hx, hk x (List.mem_append_left _ (by simpa using hx))⟩
  exprs e he := ⟨h.exprs e he, fun x hx =>
    hk x (List.mem_append_right _ (List.mem_flatMap.mpr ⟨e, he, hx⟩))⟩

theorem Expr.Legible.operands {d : Dialect} {op : Operator} {l r : Imp.Expr}
    (h : Legible d (.bin op l r)) : l.Legible d ∧ r.Legible d :=
  ⟨⟨h.writable.1, fun x hx => h.names x (List.mem_append_left _ hx)⟩,
    ⟨h.writable.2, fun x hx => h.names x (List.mem_append_right _ hx)⟩⟩

-- What the text of an expression is read as.
def Expr.inPython : Imp.Expr → Python.Expr
  | num v => .num v.toInt.toNat
  | var x => .name x
  | bin op l r => .bin op l.inPython r.inPython

def Cond.inPython (c : Cond) : Test :=
  ⟨c.rel, c.left.inPython, c.right.inPython⟩

def Expr.pythonTokens : Nat → Imp.Expr → List Python.Token
  | _, num v => [.number v.toInt.toNat]
  | _, var x => [.name x]
  | outer, bin op l r =>
    let inner := l.pythonTokens op.precedence ++ .operator op :: r.pythonTokens (op.precedence + 1)
    if op.precedence < outer then .openParen :: (inner ++ [.closeParen]) else inner

def Cond.pythonTokens (c : Cond) : List Python.Token :=
  c.left.pythonTokens 0 ++ .relation c.rel :: c.right.pythonTokens 0

-- The tokens where a name can be a keyword.
def Expr.wordTokens : Nat → Imp.Expr → List Python.Token
  | _, num v => [.number v.toInt.toNat]
  | _, var x => [Python.word x.toList]
  | outer, bin op l r =>
    let inner := l.wordTokens op.precedence ++ .operator op :: r.wordTokens (op.precedence + 1)
    if op.precedence < outer then .openParen :: (inner ++ [.closeParen]) else inner

def Cond.wordTokens (c : Cond) : List Python.Token :=
  c.left.wordTokens 0 ++ .relation c.rel :: c.right.wordTokens 0

end InPython

namespace Python

variable {c : Char} {cs w : List Char} {t : Token} {ts : List Token}

-- A text that does not go on with a word or a number.
def Breaks (cs : List Char) : Prop :=
  ∀ c ∈ cs.head?, ¬isLiteralChar c

theorem Breaks.cons (hc : ¬isLiteralChar c) : Breaks (c :: cs) := by
  simpa [Breaks] using hc

theorem literal?_toDigits (n : Nat) : literal? (Nat.toDigits 10 n) = some (.number n) := by
  have hdigits := @isDigit_of_mem_toDigits n
  have hzero : (Nat.toDigits 10 n).head? = some '0' →
      (Nat.toDigits 10 n).all (· = '0') := fun h => by
    rw [eq_zero_of_head_toDigits h]
    decide
  rw [literal?, if_pos ⟨List.all_eq_true.mpr hdigits, hzero⟩, Nat.ofDigitChars_ten_toDigits]

theorem isBlank_of_isBlank (h : isBlank c) : Token.Lexer.isBlank c := by
  simp only [isBlank, Bool.or_eq_true, decide_eq_true_eq] at h
  rcases h with rfl | rfl <;> decide

theorem not_isBlank_of_isWordChar (h : isWordChar c) : ¬isBlank c :=
  fun hb => Token.Lexer.not_isBlank_of_isWordChar h (isBlank_of_isBlank hb)

theorem not_isBlank_of_isDigit (h : c.isDigit) : ¬isBlank c :=
  fun hb => Token.Lexer.not_isBlank_of_isDigit h (isBlank_of_isBlank hb)

theorem letters_of_mem_keywords {k : String} (hk : k ∈ keywords) :
    k.toList ≠ [] ∧ k.toList.all isWordChar := by
  revert k
  decide

section Tokens

theorem tokens?_nil : tokens? [] = some [] := by
  rw [tokens?]

theorem tokens?_blank (hc : isBlank c) : tokens? (c :: cs) = tokens? cs := by
  rw [tokens?, if_pos hc]

theorem tokens?_word (hw : w ≠ []) (hl : w.all isWordChar) (hb : Breaks cs)
    (h : tokens? cs = some ts) : tokens? (w ++ cs) = some (word w :: ts) := by
  cases w with
  | nil => exact (hw rfl).elim
  | cons c w =>
    have hl := List.all_eq_true.mp hl
    have hc := hl c (by simp)
    have hname : ∀ c ∈ w, isNameChar c := fun c hmem => by
      simpa [isNameChar] using .inl (hl c (by simp [hmem]))
    have ⟨htake, hdrop⟩ :=
      takeWhile_append_eq hname fun c hmem hc => hb c hmem (by simp [isLiteralChar, hc])
    have hc : isNameStart c := hc
    simp [tokens?, not_isBlank_of_isWordChar hc, hc, htake, hdrop, h]

theorem tokens?_number (n : Nat) (hb : Breaks cs) (h : tokens? cs = some ts) :
    tokens? (Nat.toDigits 10 n ++ cs) = some (.number n :: ts) := by
  have hdigits := @isDigit_of_mem_toDigits n
  have hvalue := literal?_toDigits n
  cases hw : Nat.toDigits 10 n with
  | nil => exact (Nat.toDigits_ne_nil hw).elim
  | cons c w =>
    rw [hw] at hdigits hvalue
    have hc := hdigits c (by simp)
    have hliteral : ∀ c ∈ w, isLiteralChar c := fun c hmem => by
      simp [isLiteralChar, isNameChar, hdigits c (by simp [hmem])]
    have ⟨htake, hdrop⟩ := takeWhile_append_eq hliteral hb
    have hstart : ¬isNameStart c := Token.Lexer.not_isWordChar_of_isDigit hc
    simp [tokens?, not_isBlank_of_isDigit hc, hstart, hc, htake, hdrop, hvalue, h]

theorem tokens?_symbol {s : String} (hs : s.toList = c :: w)
    (hc : ¬isBlank c ∧ ¬isNameStart c ∧ ¬c.isDigit)
    (hf : symbols.find? (fun s => s.1.toList.isPrefixOf (c :: (w ++ cs))) = some (s, some t))
    (h : tokens? cs = some ts) : tokens? (s.toList ++ cs) = some (t :: ts) := by
  have hlength : s.length - 1 = w.length := by simp [← String.length_toList, hs]
  rw [hs, List.cons_append, tokens?, if_neg hc.1, if_neg hc.2.1, if_neg hc.2.2, hf]
  simp [hlength, h]

theorem tokens?_openParen (h : tokens? cs = some ts) :
    tokens? ('(' :: cs) = some (.openParen :: ts) :=
  tokens?_symbol (s := "(") rfl (by decide) rfl h

theorem tokens?_closeParen (h : tokens? cs = some ts) :
    tokens? (')' :: cs) = some (.closeParen :: ts) :=
  tokens?_symbol (s := ")") rfl (by decide) rfl h

theorem tokens?_operator (op : Operator) (h : tokens? (' ' :: cs) = some ts) :
    tokens? (op.symbol.toList ++ ' ' :: cs) = some (.operator op :: ts) := by
  cases op <;> exact tokens?_symbol rfl (by decide) rfl h

theorem tokens?_relation (r : Relation) (h : tokens? (' ' :: cs) = some ts) :
    tokens? (r.symbol.toList ++ ' ' :: cs) = some (.relation r :: ts) := by
  cases r <;> exact tokens?_symbol rfl (by decide) rfl h

theorem word_of_not_mem {x : String} (hk : x ∉ keywords) : word x.toList = .name x := by
  simp [word, hk]

theorem tokens?_literal {v : Int32} (hv : 0 ≤ v) (hb : Breaks cs) (h : tokens? cs = some ts) :
    tokens? ((toString v.toInt).toList ++ cs) = some (.number v.toInt.toNat :: ts) := by
  have ⟨n, hn, htext⟩ := exists_digits_of_nonneg hv
  rw [htext, hn]
  exact tokens?_number n hb h

variable {d : Dialect}

theorem tokens?_expr {e : Imp.Expr} (he : e.Writable d) (outer : Nat) (hb : Breaks cs)
    (h : tokens? cs = some ts) :
    tokens? ((e.text outer).toList ++ cs) = some (e.wordTokens outer ++ ts) := by
  induction e generalizing outer cs ts with
  | num v => exact tokens?_literal he hb h
  | var x =>
    have hx : d.IsName x := he
    have hne : x.toList ≠ [] := by simp [hx.nonempty]
    exact tokens?_word hne hx.letters hb h
  | bin op l r ihl ihr =>
    have ⟨hl, hr⟩ := he
    -- without parentheses, before anything
    have hinner : ∀ {cs ts}, Breaks cs → tokens? cs = some ts →
        tokens? ((l.text op.precedence ++ " " ++ op.symbol ++ " " ++
          r.text (op.precedence + 1)).toList ++ cs) =
          some (l.wordTokens op.precedence ++
            .operator op :: r.wordTokens (op.precedence + 1) ++ ts) := by
      intro cs ts hb h
      have hright := ihr hr (op.precedence + 1) hb h
      have hop := tokens?_operator op ((tokens?_blank (c := ' ') rfl).trans hright)
      have hleft := ihl hl op.precedence (.cons (by decide))
        ((tokens?_blank (c := ' ') rfl).trans hop)
      simpa using hleft
    simp only [Imp.Expr.text, Imp.Expr.wordTokens]
    split
    case isTrue =>
      have hopen := tokens?_openParen (hinner (.cons (by decide)) (tokens?_closeParen h))
      simpa using hopen
    case isFalse => exact hinner hb h

theorem tokens?_cond {c : Cond} (hc : ∀ e ∈ [c.left, c.right], e.Writable d) (hb : Breaks cs)
    (h : tokens? cs = some ts) : tokens? (c.text.toList ++ cs) = some (c.wordTokens ++ ts) := by
  have hright := tokens?_expr (hc c.right (by simp)) 0 hb h
  have hrel := tokens?_relation c.rel ((tokens?_blank (c := ' ') rfl).trans hright)
  have hleft := tokens?_expr (hc c.left (by simp)) 0 (.cons (by decide))
    ((tokens?_blank (c := ' ') rfl).trans hrel)
  simpa [Cond.text, Cond.wordTokens] using hleft

-- The tokens of a line that assigns to a name.
theorem tokens?_assignment {x : String} {e : Imp.Expr} (hx : d.IsName x) (he : e.Writable d) :
    tokens? (x ++ " = " ++ e.text 0).toList =
      some (word x.toList :: .assign :: e.wordTokens 0) := by
  have hvalue := tokens?_expr he 0 (by simp [Breaks]) tokens?_nil
  have hassign : tokens? ('=' :: ' ' :: _) = some (.assign :: _) :=
    tokens?_symbol (s := "=") rfl (by decide) rfl ((tokens?_blank (c := ' ') rfl).trans hvalue)
  have hname := tokens?_word (by simp [hx.nonempty]) hx.letters (.cons (by decide))
    ((tokens?_blank (c := ' ') rfl).trans hassign)
  simpa using hname

-- The tokens of a line in front of a block.
theorem tokens?_header {k : String} {c : Cond} (hk : k ∈ keywords)
    (hc : ∀ e ∈ [c.left, c.right], e.Writable d) :
    tokens? (k ++ " " ++ c.text ++ ":").toList =
      some (.keyword k :: (c.wordTokens ++ [.colon])) := by
  have ⟨hne, hletters⟩ := letters_of_mem_keywords hk
  have hcolon : tokens? [':'] = some [.colon] :=
    tokens?_symbol (s := ":") rfl (by decide) rfl tokens?_nil
  have htest := tokens?_cond hc (.cons (by decide)) hcolon
  have hword := tokens?_word hne hletters (.cons (by decide))
    ((tokens?_blank (c := ' ') rfl).trans htest)
  simpa [word, hk] using hword

theorem wordTokens_eq {e : Imp.Expr} (he : e.Legible d) (outer : Nat) :
    e.wordTokens outer = e.pythonTokens outer := by
  induction e generalizing outer with
  | num v => rfl
  | var x => simp [Imp.Expr.wordTokens, Imp.Expr.pythonTokens, word_of_not_mem,
      he.names x (by simp [Imp.Expr.names])]
  | bin op l r ihl ihr =>
    have ⟨hl, hr⟩ := he.operands
    simp only [Imp.Expr.wordTokens, Imp.Expr.pythonTokens, ihl hl, ihr hr]

theorem cond_wordTokens_eq {c : Cond} (hc : ∀ e ∈ [c.left, c.right], e.Legible d) :
    c.wordTokens = c.pythonTokens := by
  rw [Cond.wordTokens, Cond.pythonTokens, wordTokens_eq (hc c.left (by simp)),
    wordTokens_eq (hc c.right (by simp))]

end Tokens

section Expressions

variable {ws : List Waiting} {n : Nat}

-- Nothing that waits takes an operand before an operator of the level does.
def Awaits (n : Nat) (ws : List Waiting) : Prop :=
  ∀ l op, ws.head? = some (.left l op) → level op < n

theorem collapse_of_awaits (h : Awaits n ws) (e : Expr) : collapse n ws e = (ws, e) := by
  match ws with
  | [] | .paren :: _ => rfl
  | .left l op :: ws => rw [collapse, if_neg (Nat.not_le.mpr (h l op rfl))]

theorem level_eq (op : Operator) : level op = op.precedence := by
  cases op <;> rfl

-- Behind the tokens of an expression, the operators that its place asks for find the expression.
theorem foldlM_next?_expr (e : Imp.Expr) {outer : Nat} (h : Awaits outer ws) :
    ∃ ws' r, (e.pythonTokens outer).foldlM Reading.next? (.operand ws) = some (.operator ws' r) ∧
      ∀ n ≤ outer, collapse n ws' r = collapse n ws e.inPython := by
  induction e generalizing outer ws with
  | num v => exact ⟨ws, .num v.toInt.toNat, rfl, fun _ _ => rfl⟩
  | var x => exact ⟨ws, .name x, rfl, fun _ _ => rfl⟩
  | bin op l r ihl ihr =>
    -- without parentheses, as an operand of what does not bind tighter
    have hinner : ∀ ws, Awaits op.precedence ws → ∃ ws' e,
        (l.pythonTokens op.precedence ++
          .operator op :: r.pythonTokens (op.precedence + 1)).foldlM Reading.next?
            (.operand ws) = some (.operator ws' e) ∧
        ∀ n ≤ op.precedence,
          collapse n ws' e = collapse n ws (.bin op l.inPython r.inPython) := by
      intro ws h
      have ⟨wl, el, hl, hcl⟩ := ihl h
      have hop : Reading.next? (.operator wl el) (.operator op) =
          some (.operand (.left l.inPython op :: ws)) := by
        simp [Reading.next?, level_eq, hcl _ (Nat.le_refl _), collapse_of_awaits h]
      have hr : Awaits (op.precedence + 1) (.left l.inPython op :: ws) := by
        rintro _ _ ⟨⟩
        simp [level_eq]
      have ⟨wr, er, hr, hcr⟩ := ihr hr
      refine ⟨wr, er, by simp [List.foldlM_append, hl, hop, hr], fun n hn => ?_⟩
      rw [hcr n (by omega), collapse, if_pos (level_eq op ▸ hn)]
    simp only [Imp.Expr.pythonTokens]
    split
    case isTrue =>
      have ⟨ws', e, hi, hc⟩ := hinner (.paren :: ws) (by simp [Awaits])
      have hclose : Reading.next? (.operator ws' e) .closeParen =
          some (.operator ws (.bin op l.inPython r.inPython)) := by
        simp [Reading.next?, hc 0 (Nat.zero_le _), collapse]
      refine ⟨ws, .bin op l.inPython r.inPython, ?_, fun _ _ => rfl⟩
      have hopen : Reading.next? (.operand ws) .openParen = some (.operand (.paren :: ws)) := rfl
      rw [List.foldlM_cons, hopen, Option.bind_eq_bind, Option.bind_some, List.foldlM_append, hi]
      simp [hclose]
    case isFalse hle =>
      have ⟨ws', e, hi, hc⟩ := hinner ws (fun l op hw => Nat.lt_of_lt_of_le (h l op hw) (by omega))
      exact ⟨ws', e, hi, fun n hn => hc n (by omega)⟩

theorem expr?_tokens (e : Imp.Expr) : expr? (e.pythonTokens 0) = some e.inPython := by
  have hstart : Awaits 0 [] := by simp [Awaits]
  have ⟨ws, r, hr, hc⟩ := foldlM_next?_expr e hstart
  simp [expr?, hr, Reading.expr?, hc 0 (Nat.le_refl _), collapse]

example : (tokens? "a - b - 2 * c".toList).bind expr? =
    some (.bin .sub (.bin .sub (.name "a") (.name "b")) (.bin .mul (.num 2) (.name "c"))) := by
  decide +kernel

theorem not_isRelation_of_mem (e : Imp.Expr) (outer : Nat) :
    ∀ t ∈ e.pythonTokens outer, !t.isRelation := by
  induction e generalizing outer with
  | num v | var x => simp [Imp.Expr.pythonTokens, Token.isRelation]
  | bin op l r ihl ihr =>
    have hinner : ∀ t ∈ l.pythonTokens op.precedence ++
        .operator op :: r.pythonTokens (op.precedence + 1), !t.isRelation :=
      List.forall_mem_append.mpr ⟨ihl _, List.forall_mem_cons.mpr ⟨rfl, ihr _⟩⟩
    simp only [Imp.Expr.pythonTokens]
    split
    case isTrue =>
      refine List.forall_mem_cons.mpr ⟨rfl, List.forall_mem_append.mpr ⟨hinner, ?_⟩⟩
      simp [Token.isRelation]
    case isFalse => exact hinner

theorem test?_tokens (c : Cond) : test? c.pythonTokens = some c.inPython := by
  have hl := not_isRelation_of_mem c.left 0
  have hrel : Token.isRelation (.relation c.rel) := rfl
  simp [test?, Cond.pythonTokens, List.takeWhile_append_of_pos hl, List.dropWhile_append_of_pos hl,
    hrel, expr?_tokens, Cond.inPython]

theorem header?_tokens (c : Cond) : header? (c.pythonTokens ++ [.colon]) = some c.inPython := by
  simp [header?, test?_tokens]

end Expressions

section Clauses

variable {d : Dialect}

-- What a line says behind its margin.
structure Says (text : String) (c : Clause) : Prop where
  flush : ∀ c ∈ text.toList.head?, ¬isBlank c
  clause : (tokens? text.toList).bind clause? = some c

theorem not_isBlank_head (hw : w ≠ []) (hl : w.all isWordChar) :
    ∀ c ∈ (w ++ cs).head?, ¬isBlank c := by
  cases w with
  | nil => exact (hw rfl).elim
  | cons c w =>
    rintro _ ⟨⟩
    exact not_isBlank_of_isWordChar (List.all_eq_true.mp hl c (by simp))

theorem says_pass : Says "pass" .pass where
  flush := by
    rintro _ ⟨⟩
    decide
  clause := by decide +kernel

theorem says_else : Says "else:" .otherwise where
  flush := by
    rintro _ ⟨⟩
    decide
  clause := by decide +kernel

theorem says_assign {x : String} {e : Imp.Expr} (hx : d.IsName x) (hk : x ∉ keywords)
    (he : e.Legible d) : Says (x ++ " = " ++ e.text 0) (.assign x e.inPython) where
  flush := by
    simp only [String.toList_append, List.append_assoc]
    exact not_isBlank_head (by simp [hx.nonempty]) hx.letters
  clause := by
    rw [tokens?_assignment hx he.writable, word_of_not_mem hk, wordTokens_eq he]
    simp [clause?, expr?_tokens]

-- A line in front of a block.
theorem says_header {k : String} {f : Test → Clause} {c : Cond} (hk : k ∈ keywords)
    (hf : ∀ ts, clause? (.keyword k :: ts) = (header? ts).map f)
    (hc : ∀ e ∈ [c.left, c.right], e.Legible d) :
    Says (k ++ " " ++ c.text ++ ":") (f c.inPython) where
  flush := by
    have ⟨hne, hletters⟩ := letters_of_mem_keywords hk
    simp only [String.toList_append, List.append_assoc]
    exact not_isBlank_head hne hletters
  clause := by
    rw [tokens?_header hk fun e he => (hc e he).writable, cond_wordTokens_eq hc]
    simp [hf, header?_tokens]

theorem says_loop {c : Cond} (hc : ∀ e ∈ [c.left, c.right], e.Legible d) :
    Says ("while " ++ c.text ++ ":") (.loop c.inPython) :=
  says_header (k := "while") (by decide) (fun _ => rfl) hc

theorem says_branch {c : Cond} (hc : ∀ e ∈ [c.left, c.right], e.Legible d) :
    Says ("if " ++ c.text ++ ":") (.branch c.inPython) :=
  says_header (k := "if") (by decide) (fun _ => rfl) hc

end Clauses

end Python

end Imp
