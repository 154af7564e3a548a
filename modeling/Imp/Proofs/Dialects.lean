import Imp.Proofs.Asm.Simulation
import Imp.Proofs.Writable
import Imp.Toolchain

/-!
What the two dialects make of one source.

Their tokens differ in the words `if` and `else` only. As words of a conditional these are followed
by an opening bracket, which never follows a name: where both dialects accept a source it does not
have them.
-/

namespace Imp

open Grammar

namespace Token

-- The kind of a token in the loop dialect.
def Kind.unreserved : Kind → Kind
  | ifWord => ident "if"
  | elseWord => ident "else"
  | k => k

def unreserved (t : Token) : Token :=
  { t with kind := t.kind.unreserved }

namespace Kind

variable {k : Kind}

theorem unreserved_eq_self (h : k ≠ ifWord ∧ k ≠ elseWord) : k.unreserved = k := by
  cases k <;> first | rfl | simp at h

theorem unreserved_eq_eof : k.unreserved = eof ↔ k = eof := by
  cases k <;> simp [unreserved]

theorem ofWord_loop (w : String) : ofWord .loop w = (ofWord .full w).unreserved := by
  unfold ofWord
  split <;> rfl

end Kind

namespace Lexer

variable {p : Nat} {c : Char} {cs rest : List Char}

def Lexeme.unreserved (l : Lexeme) : Lexeme :=
  { l with kind := l.kind.unreserved }

theorem number_unreserved :
    (number p c rest).map Lexeme.unreserved = number p c rest := by
  simp only [number]
  split <;> rfl

theorem symbol_unreserved :
    (symbol p c rest).map Lexeme.unreserved = symbol p c rest := by
  cases hs : symbol p c rest with
  | error e => rfl
  | ok l =>
    have hl := isMark_of_symbol hs
    have hword : l.kind ≠ .ifWord ∧ l.kind ≠ .elseWord :=
      ⟨fun h => absurd hl (h ▸ Bool.false_ne_true), fun h => absurd hl (h ▸ Bool.false_ne_true)⟩
    simp only [Except.map, Lexeme.unreserved, Kind.unreserved_eq_self hword]

theorem first_loop :
    first .loop p c rest = (first .full p c rest).map Lexeme.unreserved := by
  unfold first
  split
  case isTrue => simp [word, Except.map, Lexeme.unreserved, Kind.ofWord_loop]
  case isFalse =>
    split
    case isTrue => exact number_unreserved.symm
    case isFalse => exact symbol_unreserved.symm

theorem scan_loop : scan .loop p cs = (scan .full p cs).map (List.map Token.unreserved) := by
  fun_induction scan .full p cs with
  | case1 p => simp [scan, Except.map, Token.unreserved, Kind.unreserved]
  | case2 p c rest hc ih => rw [scan, if_pos hc, ih]
  | case3 p c rest hc e he =>
    rw [scan_of_error hc (e := e) (by rw [first_loop, he]; rfl)]
    rfl
  | case4 p c rest hc l hl hlength e he ih | case5 p c rest hc l hl hlength ts he ih =>
    have hloop : first .loop p c rest = .ok l.unreserved := by rw [first_loop, hl]; rfl
    rw [scan_of_first hc hloop]
    simp only [Lexeme.unreserved, ih, he]
    rfl

end Lexer

end Token

open Token (Kind)

namespace Parser.State

variable {d : Dialect} {s t : State} {k word bracket : Kind} {ks : List Kind} {p : Program}

-- The words of a conditional, and the bracket that has to follow each of them.
inductive Opens : Kind → Kind → Prop
  | ifWord : Opens .ifWord .openParen
  | elseWord : Opens .elseWord .openBrace

-- Kinds that cannot stand behind an operand.
def Leads (k : Kind) : Prop :=
  (∃ bracket, Opens k bracket) ∨ (∃ word, Opens word k) ∨ ∃ x, k = .ident x

theorem next?_operator {place : Place} {e : Expr} (hm : s.mode = .operator place e)
    (hk : Leads k) : s.next? d k = none := by
  obtain ⟨frames, before, mode⟩ := s
  obtain ⟨role, level, outer⟩ := place
  subst hm
  obtain ⟨_, ⟨⟩ | ⟨⟩⟩ | ⟨_, ⟨⟩ | ⟨⟩⟩ | ⟨x, rfl⟩ := hk <;> cases outer <;> cases role <;> rfl

theorem next?_ifWord (h : s.next? d .ifWord = some t) : t.mode = .openParen .branch := by
  obtain ⟨frames, before, mode⟩ := s
  cases mode with
  | statement | elseWord =>
    simp only [next?, atStatement?, Option.ite_none_right_eq_some, Option.some.injEq] at h
    rw [← h.2]
  | operator => cases (next?_operator rfl (.inl ⟨_, .ifWord⟩)).symm.trans h
  | _ => cases h

theorem next?_elseWord (h : s.next? d .elseWord = some t) : ∃ o, t.mode = .openBrace o := by
  obtain ⟨frames, before, mode⟩ := s
  cases mode with
  | elseWord => cases h; exact ⟨_, rfl⟩
  | operator => cases (next?_operator rfl (.inl ⟨_, .elseWord⟩)).symm.trans h
  | _ => cases h

theorem next?_ident {x : String} (h : s.next? d (.ident x) = some t) :
    (∃ role, t.mode = .equals role) ∨ ∃ place e, t.mode = .operator place e := by
  obtain ⟨frames, before, mode⟩ := s
  cases mode with
  | statement | elseWord | declaredName => cases h; exact .inl ⟨_, rfl⟩
  | operand place => cases h; exact .inr ⟨_, _, rfl⟩
  | operator => cases (next?_operator rfl (.inr (.inr ⟨_, rfl⟩))).symm.trans h
  | _ => cases h

-- What follows the word of a conditional in a program.
theorem eq_cons_of_opens (hw : Opens word bracket) (h : s.run? d (word :: ks) = some t)
    (hp : t.program? = some p) : ∃ ls, ks = bracket :: ls := by
  rw [run?_cons, Option.bind_eq_some_iff] at h
  obtain ⟨⟨frames, before, mode⟩, hnext, hrun⟩ := h
  have hmode : mode = .openParen .branch ∧ bracket = .openParen ∨
      ∃ o, mode = .openBrace o ∧ bracket = .openBrace := by
    cases hw with
    | ifWord => exact .inl ⟨next?_ifWord hnext, rfl⟩
    | elseWord =>
      obtain ⟨o, ho⟩ := next?_elseWord hnext
      exact .inr ⟨o, ho, rfl⟩
  cases ks with
  | nil =>
    cases hrun
    obtain ⟨rfl, -⟩ | ⟨o, rfl, -⟩ := hmode <;> simp [program?, settled] at hp
  | cons k ls =>
    rw [run?_cons, Option.bind_eq_some_iff] at hrun
    obtain ⟨u, hnext, -⟩ := hrun
    refine ⟨ls, ?_⟩
    obtain ⟨rfl, rfl⟩ | ⟨o, rfl, rfl⟩ := hmode <;> cases k <;> first | rfl | cases hnext

-- The same bracket never follows a name.
theorem run?_ident_bracket (hw : Opens word bracket) (x : String) :
    s.run? d (.ident x :: bracket :: ks) = none := by
  cases hs : s.next? d (.ident x) with
  | none => simp [run?_cons, hs]
  | some t =>
    have hnone : t.next? d bracket = none := by
      obtain ⟨role, hm⟩ | ⟨place, e, hm⟩ := next?_ident hs
      case inl =>
        obtain ⟨frames, before, mode⟩ := t
        subst hm
        cases hw <;> rfl
      case inr => exact next?_operator hm (.inr (.inl ⟨_, hw⟩))
    simp [run?_cons, hs, hnone]

theorem next?_full_eq_loop (h : k ≠ .ifWord) : s.next? .full k = s.next? .loop k := by
  obtain ⟨frames, before, mode⟩ := s
  cases mode <;> cases k <;> first | rfl | cases h rfl

theorem run?_full_eq_loop (h : .ifWord ∉ ks) : s.run? .full ks = s.run? .loop ks := by
  induction ks generalizing s with
  | nil => rfl
  | cons k ks ih =>
    have hk : k ≠ .ifWord := fun hk => h (by simp [hk])
    simp only [run?_cons, next?_full_eq_loop hk]
    exact congrArg _ (funext fun u => ih fun hks => h (by simp [hks]))

theorem feed_full_eq_loop {ts : List Token} (h : ∀ t ∈ ts, t.kind ≠ .ifWord) :
    s.feed .full ts = s.feed .loop ts := by
  induction ts generalizing s with
  | nil => rfl
  | cons t ts ih =>
    simp only [feed, next?_full_eq_loop (h t (by simp))]
    cases s.next? .loop t.kind with
    | none => rfl
    | some s' => exact ih fun t ht => h t (by simp [ht])

end Parser.State

namespace Grammar

mutual

theorem not_branch_mem_statement {ks : List Kind} {s : Stmt} (h : Statement .loop ks s) :
    ∀ test t f, .branch test t f ∉ s.parts := by
  cases h with
  | declare | assign => simp [Stmt.parts]
  | loop condition body =>
    have hb := unconditional_of_loop body
    exact fun test t f hmem => hb test t f (by simpa [Stmt.parts] using hmem)
  | branch has | branchElse has => cases has

theorem unconditional_of_loop {ks : List Kind} {p : Program} (h : Statements .loop ks p) :
    p.Unconditional := by
  cases h with
  | nil => simp [Program.Unconditional, Program.parts]
  | cons head tail =>
    have hs := not_branch_mem_statement head
    have hp := unconditional_of_loop tail
    exact fun test t f hmem => (List.mem_append.mp hmem).elim (hs test t f) (hp test t f)

end

end Grammar

namespace Dialect

open Imp.Parser

variable {text : String} {ts : List Token} {p q : Program}

theorem tokens_loop (text : String) :
    loop.tokens text = (full.tokens text).map (List.map Token.unreserved) :=
  Token.Lexer.scan_loop

theorem kinds_unreserved (ts : List Token) :
    kinds (ts.map Token.unreserved) = (kinds ts).map Kind.unreserved := by
  simp [kinds, List.takeWhile_map, Function.comp_def, Token.unreserved, Kind.unreserved_eq_eof]

-- A word of a conditional is a name in the loop dialect, and its bracket cannot follow that.
theorem not_mem_of_both {ks : List Kind} {word bracket : Kind} (hw : State.Opens word bracket)
    (hp : Statements full ks p) (hq : Statements loop (ks.map Kind.unreserved) q) : word ∉ ks := by
  intro hmem
  obtain ⟨as, bs, rfl⟩ := List.append_of_mem hmem
  have ⟨s, hrun, hprogram⟩ := program?_of_statements hp
  rw [State.run?_append, Option.bind_eq_some_iff] at hrun
  have ⟨_, _, hrun⟩ := hrun
  obtain ⟨ls, rfl⟩ := State.eq_cons_of_opens hw hrun hprogram
  have hname : ∃ x, word.unreserved = .ident x := by cases hw <;> exact ⟨_, rfl⟩
  have hbracket : bracket.unreserved = bracket := by cases hw <;> rfl
  obtain ⟨x, hx⟩ := hname
  have ⟨t, hloop, _⟩ := program?_of_statements hq
  simp only [List.map_append, List.map_cons, hx, hbracket, State.run?_append,
    State.run?_ident_bracket hw, Option.bind_fun_none, reduceCtorEq] at hloop

theorem parseTokens_full_eq_loop (h : ∀ t ∈ ts, t.kind ≠ .ifWord) :
    full.parseTokens ts = loop.parseTokens ts := by
  simp only [parseTokens]
  split
  case h_1 t _ _ => rw [State.feed_full_eq_loop fun t ht => h t (List.takeWhile_subset _ ht)]
  case h_2 => rfl
  case h_3 t _ ht =>
    have hmem := List.mem_of_getLast? ht
    rw [State.feed_full_eq_loop fun u hu => ?_]
    simp only [List.mem_append, List.mem_replicate] at hu
    exact hu.elim (h u) fun hu => hu.2 ▸ h t hmem

theorem parse_full_eq_loop
    (h : ∀ ts, full.tokens text = .ok ts → ∀ t ∈ ts, t.kind ≠ .ifWord ∧ t.kind ≠ .elseWord) :
    full.parse text = loop.parse text := by
  have hloop := tokens_loop text
  cases hfull : full.tokens text with
  | error e =>
    rw [hfull] at hloop
    simp only [parse, read, hfull, hloop, Except.map]
  | ok ts =>
    have hts := h ts hfull
    have hmap : ts.map Token.unreserved = ts := by
      refine (List.map_congr_left fun t ht => ?_).trans (List.map_id ts)
      simp [Token.unreserved, Kind.unreserved_eq_self (hts t ht)]
    rw [hfull] at hloop
    rw [parse_of_tokens hfull, parse_of_tokens hloop, hmap]
    rw [parseTokens_full_eq_loop fun t ht => (hts t ht).1]

theorem eq_of_both (hp : full.parse text = .ok p) (hq : loop.parse text = .ok q) : p = q := by
  have ⟨ts, ht, hp⟩ := parse_eq_ok_iff.mp hp
  have ⟨us, hu, hq⟩ := parse_eq_ok_iff.mp hq
  obtain rfl : us = ts.map Token.unreserved := by
    rw [tokens_loop, ht] at hu
    exact (Except.ok.inj hu).symm
  rw [kinds_unreserved] at hq
  have hif := not_mem_of_both .ifWord hp hq
  have helse := not_mem_of_both .elseWord hp hq
  have hmap : (kinds ts).map Kind.unreserved = kinds ts := by
    refine (List.map_congr_left fun k hk => ?_).trans (List.map_id _)
    exact Kind.unreserved_eq_self ⟨fun h => hif (h ▸ hk), fun h => helse (h ▸ hk)⟩
  -- both parsers go through the same states
  have ⟨s, hs, hp⟩ := program?_of_statements hp
  have ⟨t, ht, hq⟩ := program?_of_statements hq
  rw [State.run?_full_eq_loop hif] at hs
  rw [hmap] at ht
  obtain rfl := Option.some.inj (hs.symm.trans ht)
  exact Option.some.inj (hp.symm.trans hq)

-- A source that both dialects accept is the same program in both of them, without conditionals, and
-- all tools work on that one. A source without the words of conditionals is nothing else in the one
-- dialect than in the other.
theorem dialects_agree (text : String) :
    (∀ p q, full.parse text = .ok p → loop.parse text = .ok q → p = q ∧ p.Unconditional ∧
      (∀ limit, Toolchain.interpret limit text = (p.run limit).result) ∧
      Toolchain.python text = .ok (p.pythonText Python.defaultIndent) ∧
      Toolchain.wat text = (p.watText {}).mapError .undeclared ∧
      Toolchain.assembly text = p.asmText.mapError .unsupported) ∧
    ((∀ ts, full.tokens text = .ok ts → ∀ t ∈ ts, t.kind ≠ .ifWord ∧ t.kind ≠ .elseWord) →
      full.parse text = loop.parse text) := by
  refine ⟨fun p q hp hq => ?_, parse_full_eq_loop⟩
  obtain rfl := eq_of_both hp hq
  have ⟨_, _, hs⟩ := parse_eq_ok_iff.mp hq
  refine ⟨rfl, unconditional_of_loop hs, fun limit => ?_, ?_, ?_, ?_⟩
  all_goals
    simp only [Toolchain.interpret, Toolchain.python, Toolchain.wat, Toolchain.assembly,
      Toolchain.program, hp, hq]
    rfl

-- Names that start like the words of conditionals.
def lookalikeText : String := "while (iff < elsewhere) \x7b iff = 1; \x7d"

def lookalike : Program :=
  [.loop ⟨.lt, .var "iff", .var "elsewhere"⟩ [.assign "iff" (.num 1)]]

theorem lookalike_agrees :
    full.parse lookalikeText = loop.parse lookalikeText ∧
      Toolchain.assembly lookalikeText = lookalike.asmText.mapError .unsupported := by
  have hwords : (full.tokens lookalikeText).map (fun ts => ts.all fun t =>
      t.kind ≠ .ifWord ∧ t.kind ≠ .elseWord) = .ok true := by decide +kernel
  have hfull : full.parse lookalikeText = .ok lookalike := by decide +kernel
  have ⟨hboth, hsame⟩ := dialects_agree lookalikeText
  have hparse : full.parse lookalikeText = loop.parse lookalikeText := hsame fun ts hts => by
    simpa [hts, Except.map] using hwords
  exact ⟨hparse, (hboth _ _ hfull (hparse ▸ hfull)).2.2.2.2.2⟩

end Dialect

end Imp
