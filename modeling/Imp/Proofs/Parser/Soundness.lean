import Imp.Proofs.Except
import Imp.Proofs.Parser.Completeness

/-!
The parser reads nothing but what the grammar derives.

What is open in a state, from the outermost block to the innermost operand, spells the kinds of the
tokens that have been read.
-/

namespace Imp

open Grammar

namespace Parser

open Token (Kind)

def Guard.kind : Guard → Kind
  | loop => .whileWord
  | branch => .ifWord

-- Guards that a dialect has.
def Guard.In (g : Guard) (d : Dialect) : Prop :=
  g = branch → d.hasConditionals

inductive SumSpells : Option (Expr × Operator) → List Kind → Prop
  | none : SumSpells none []
  | some {ks : List Kind} {e : Expr} {op : Operator} (hop : op ≠ .mul)
      (left : Derives .arith ks e) : SumSpells (some (e, op)) (ks ++ [.operator op])

inductive ProductSpells : Option Expr → List Kind → Prop
  | none : ProductSpells none []
  | some {ks : List Kind} {e : Expr} (left : Derives .term ks e) :
      ProductSpells (some e) (ks ++ [.operator .mul])

-- The statement so far, up to one of its expressions.
inductive Role.Spells (d : Dialect) : Role → List Kind → Prop
  | declared (x : String) : Spells d (.declared x) [.varWord, .ident x, .assign]
  | assigned (x : String) : Spells d (.assigned x) [.ident x, .assign]
  | left {g : Guard} (has : g.In d) : Spells d (.left g) [g.kind, .openParen]
  | right {g : Guard} {ks : List Kind} {l : Expr} (has : g.In d) (rel : Relation)
      (left : Derives .arith ks l) :
      Spells d (.right g l rel) (g.kind :: .openParen :: (ks ++ [.relation rel]))

-- The statement so far, up to the innermost open parenthesis of an expression.
inductive OuterSpells (d : Dialect) (role : Role) : List Pending → List Kind → Prop
  | role {ks : List Kind} (start : role.Spells d ks) : OuterSpells d role [] ks
  | paren {level : Pending} {outer : List Pending} {as bs cs : List Kind}
      (around : OuterSpells d role outer as) (sum : SumSpells level.sum bs)
      (product : ProductSpells level.product cs) :
      OuterSpells d role (level :: outer) (as ++ (bs ++ (cs ++ [.openParen])))

-- The statement so far, up to one of its blocks.
inductive Opening.Spells (d : Dialect) : Opening → List Kind → Prop
  | loop {ks : List Kind} {test : Cond} (condition : Condition ks test) :
      Spells d (.loop test) (.whileWord :: .openParen :: (ks ++ [.closeParen]))
  | consequent {ks : List Kind} {test : Cond} (has : d.hasConditionals)
      (condition : Condition ks test) :
      Spells d (.consequent test) (.ifWord :: .openParen :: (ks ++ [.closeParen]))
  | alternate {ks ts : List Kind} {test : Cond} {t : Program} (has : d.hasConditionals)
      (condition : Condition ks test) (consequent : Statements d ts t) :
      Spells d (.alternate test t) (.ifWord :: .openParen :: (ks ++ .closeParen :: .openBrace ::
        (ts ++ [.closeBrace, .elseWord])))

inductive Mode.Spells (d : Dialect) : Mode → List Kind → Prop
  | statement : Spells d .statement []
  | declaredName : Spells d .declaredName [.varWord]
  | equals {role : Role} {ks : List Kind} (start : role.Spells d (ks ++ [.assign])) :
      Spells d (.equals role) ks
  | openParen {g : Guard} (has : g.In d) : Spells d (.openParen g) [g.kind]
  | operand {role : Role} {level : Pending} {outer : List Pending} {as bs cs : List Kind}
      (around : OuterSpells d role outer as) (sum : SumSpells level.sum bs)
      (product : ProductSpells level.product cs) :
      Spells d (.operand ⟨role, level, outer⟩) (as ++ (bs ++ cs))
  | operator {role : Role} {sum : Option (Expr × Operator)} {outer : List Pending} {e : Expr}
      {as bs cs : List Kind} (around : OuterSpells d role outer as) (left : SumSpells sum bs)
      (read : Derives .term cs e) :
      Spells d (.operator ⟨role, ⟨sum, none⟩, outer⟩ e) (as ++ (bs ++ cs))
  | openBrace {o : Opening} {ks : List Kind} (opening : o.Spells d ks) : Spells d (.openBrace o) ks
  | elseWord {ks ts : List Kind} {test : Cond} {t : Program} (has : d.hasConditionals)
      (condition : Condition ks test) (consequent : Statements d ts t) :
      Spells d (.elseWord test t) (.ifWord :: .openParen :: (ks ++ .closeParen :: .openBrace ::
        (ts ++ [.closeBrace])))

inductive FramesSpell (d : Dialect) : List Frame → List Kind → Prop
  | nil : FramesSpell d [] []
  | cons {frames : List Frame} {o : Opening} {before : Program} {as bs os : List Kind}
      (outer : FramesSpell d frames as) (previous : Statements d bs before.reverse)
      (opening : o.Spells d os) :
      FramesSpell d (⟨o, before⟩ :: frames) (as ++ (bs ++ (os ++ [.openBrace])))

inductive State.Spells (d : Dialect) : State → List Kind → Prop
  | mk {frames : List Frame} {before : Program} {mode : Mode} {as bs ms : List Kind}
      (outer : FramesSpell d frames as) (previous : Statements d bs before.reverse)
      (current : mode.Spells d ms) : Spells d ⟨frames, before, mode⟩ (as ++ (bs ++ ms))

variable {d : Dialect} {k : Kind} {ks as bs cs : List Kind} {e : Expr}

theorem Pending.derives_times {p : Pending} (hp : ProductSpells p.product as)
    (he : Derives .factor bs e) : Derives .term (as ++ bs) (p.times e) := by
  obtain ⟨sum, product⟩ := p
  cases hp with
  | none => exact he.term_of_factor
  | some left => simpa [times] using left.times he

theorem Pending.derives_plus {p : Pending} (hp : SumSpells p.sum as) (he : Derives .term bs e) :
    Derives .arith (as ++ bs) (p.plus e) := by
  obtain ⟨sum, product⟩ := p
  cases hp with
  | none => exact he.arith_of_term
  | some hop left => simpa [plus] using left.plus hop he

theorem Place.after_spells {p : Place} {fs : List Kind} (outer : OuterSpells d p.role p.outer as)
    (sum : SumSpells p.level.sum bs) (product : ProductSpells p.level.product cs)
    (he : Derives .factor fs e) : (p.after e).Spells d (as ++ (bs ++ (cs ++ fs))) :=
  .operator outer sum (Pending.derives_times product he)

theorem atOperand?_spells {p : Place} {m : Mode} (h : Mode.Spells d (.operand p) ks)
    (hn : State.atOperand? p k = some m) : m.Spells d (ks ++ [k]) := by
  cases h with
  | operand outer sum product =>
    cases k with
    | number v =>
      cases hn
      simpa using Place.after_spells outer sum product (.number v)
    | ident x =>
      cases hn
      simpa using Place.after_spells outer sum product (.name x)
    | openParen =>
      cases hn
      have h : Mode.Spells d (.operand ⟨_, .empty, _⟩) _ :=
        .operand (.paren outer sum product) .none .none
      simpa using h
    | _ => cases hn

theorem Role.Spells.place {role : Role} (h : role.Spells d ks) :
    Mode.Spells d (.operand role.place) ks := by
  have h : Mode.Spells d (.operand ⟨role, .empty, []⟩) _ := .operand (.role h) .none .none
  simpa [Role.place] using h

theorem Guard.opening_spells {g : Guard} {test : Cond} (has : g.In d) (h : Condition ks test) :
    (g.opening test).Spells d (g.kind :: .openParen :: (ks ++ [.closeParen])) := by
  cases g with
  | loop => exact .loop h
  | branch => exact .consequent (has rfl) h

namespace State

variable {s t : State}

-- A step that changes no more than the mode adds to what the mode spells.
theorem Spells.mode {frames : List Frame} {before : Program} {mode mode' : Mode}
    (h : Spells d ⟨frames, before, mode⟩ ks)
    (hm : ∀ {ms}, mode.Spells d ms → mode'.Spells d (ms ++ [k])) :
    Spells d ⟨frames, before, mode'⟩ (ks ++ [k]) := by
  cases h with
  | mk outer previous current => simpa using Spells.mk outer previous (hm current)

theorem add_spells {stmt : Stmt} (h : FramesSpell d s.frames as)
    (hb : Statements d bs s.before.reverse) (hs : Statement d ks stmt) :
    (s.add stmt).Spells d (as ++ (bs ++ ks)) := by
  have hb : Statements d (bs ++ ks) (stmt :: s.before).reverse := by
    simpa using hb.snoc hs
  simpa [add] using Spells.mk h hb .statement

theorem atEnd?_spells {role : Role} {rs es : List Kind} (h : FramesSpell d s.frames as)
    (hb : Statements d bs s.before.reverse) (hr : role.Spells d rs) (he : Derives .arith es e)
    (hn : s.atEnd? e role k = some t) : t.Spells d (as ++ (bs ++ (rs ++ (es ++ [k])))) := by
  cases hr with
  | declared x =>
    cases k <;> simp only [atEnd?, reduceCtorEq] at hn
    case semicolon =>
      obtain rfl := Option.some.inj hn
      exact add_spells h hb (.declare x he)
  | assigned x =>
    cases k <;> simp only [atEnd?, reduceCtorEq] at hn
    case semicolon =>
      obtain rfl := Option.some.inj hn
      exact add_spells h hb (.assign x he)
  | left has =>
    cases k <;> simp only [atEnd?, reduceCtorEq] at hn
    case relation rel =>
      obtain rfl := Option.some.inj hn
      simpa using Spells.mk h hb (Role.Spells.right has rel he).place
  | @right g ls l has rel hl =>
    cases k <;> simp only [atEnd?, reduceCtorEq] at hn
    case closeParen =>
      obtain rfl := Option.some.inj hn
      have ho := Guard.opening_spells has (Condition.mk rel hl he)
      simpa using Spells.mk h hb (.openBrace ho)

theorem atOperator?_spells {p : Place} (h : s.Spells d ks) (hm : s.mode = .operator p e)
    (hn : s.atOperator? p e k = some t) : t.Spells d (ks ++ [k]) := by
  cases h with
  | @mk frames before mode as bs ms outer previous current =>
    subst hm
    cases current with
    | @operator role sum levels _ os ss rs around left read =>
      have hplus : Derives .arith (ss ++ rs) (Pending.plus ⟨sum, none⟩ e) :=
        Pending.derives_plus left read
      have hlink : ∀ op, op ≠ .mul → Spells d ⟨frames, before,
          .operand ⟨role, ⟨some (Pending.plus ⟨sum, none⟩ e, op), none⟩, levels⟩⟩
          (as ++ (bs ++ (os ++ (ss ++ rs))) ++ [.operator op]) := by
        intro op hop
        have hm : Mode.Spells d (.operand ⟨role, ⟨some (_, op), none⟩, levels⟩) _ :=
          .operand around (.some hop hplus) .none
        simpa using Spells.mk outer previous hm
      cases k with
      | operator op =>
        cases op with
        | mul =>
          obtain rfl := Option.some.inj hn
          have hm : Mode.Spells d (.operand ⟨role, ⟨sum, some e⟩, levels⟩) _ :=
            .operand around left (.some read)
          simpa using Spells.mk outer previous hm
        | add | sub =>
          obtain rfl := Option.some.inj hn
          exact hlink _ (by simp)
      | closeParen =>
        cases around with
        | role start => simpa using atEnd?_spells outer previous start hplus hn
        | paren around sum product =>
          obtain rfl := Option.some.inj hn
          have hm := Place.after_spells (p := ⟨role, _, _⟩) around sum product (.parens hplus)
          simpa using Spells.mk outer previous hm
      | _ =>
        cases around with
        | role start => simpa using atEnd?_spells outer previous start hplus hn
        | paren => simp [atOperator?] at hn

theorem settled_spells (h : s.Spells d ks) : s.settled.Spells d ks := by
  cases h with
  | mk outer previous current =>
    cases current with
    | elseWord has condition consequent =>
      exact add_spells outer previous (.branch has condition consequent)
    | statement => exact .mk outer previous .statement
    | declaredName => exact .mk outer previous .declaredName
    | equals start => exact .mk outer previous (.equals start)
    | openParen has => exact .mk outer previous (.openParen has)
    | operand around sum product => exact .mk outer previous (.operand around sum product)
    | operator around left read => exact .mk outer previous (.operator around left read)
    | openBrace opening => exact .mk outer previous (.openBrace opening)

theorem close?_spells (h : s.Spells d ks) (hm : s.mode = .statement) (hc : s.close? = some t) :
    t.Spells d (ks ++ [.closeBrace]) := by
  cases h with
  | mk outer previous current =>
    subst hm
    cases current
    cases outer with
    | nil => simp [close?] at hc
    | cons around before opening =>
      cases opening with
      | loop condition =>
        obtain rfl := Option.some.inj hc
        simpa [add] using add_spells (s := ⟨_, _, .statement⟩) around before
          (.loop condition previous)
      | consequent has condition =>
        obtain rfl := Option.some.inj hc
        simpa using Spells.mk around before (.elseWord has condition previous)
      | alternate has condition consequent =>
        obtain rfl := Option.some.inj hc
        simpa [add] using add_spells (s := ⟨_, _, .statement⟩) around before
          (.branchElse has condition consequent previous)

theorem atStatement?_spells (h : s.Spells d ks) (hm : s.mode = .statement)
    (hn : s.atStatement? d k = some t) : t.Spells d (ks ++ [k]) := by
  obtain ⟨frames, before, mode⟩ := s
  subst hm
  have hmode : ∀ {mode'}, mode'.Spells d [k] → Spells d ⟨frames, before, mode'⟩ (ks ++ [k]) :=
    fun hm => h.mode fun hs => by cases hs; exact hm
  cases k with
  | varWord =>
    obtain rfl := Option.some.inj hn
    exact hmode .declaredName
  | ident x =>
    obtain rfl := Option.some.inj hn
    exact hmode (.equals (.assigned x))
  | whileWord =>
    obtain rfl := Option.some.inj hn
    exact hmode (@Mode.Spells.openParen d .loop (by simp [Guard.In]))
  | ifWord =>
    simp only [atStatement?] at hn
    split at hn
    case isTrue has =>
      obtain rfl := Option.some.inj hn
      exact hmode (@Mode.Spells.openParen d .branch fun _ => has)
    case isFalse => simp at hn
  | closeBrace => exact close?_spells h rfl hn
  | _ => simp [atStatement?] at hn

theorem next?_spells (h : s.Spells d ks) (hn : s.next? d k = some t) : t.Spells d (ks ++ [k]) := by
  obtain ⟨frames, before, mode⟩ := s
  unfold next? at hn
  split at hn
  case h_1 hm => exact atStatement?_spells h hm hn
  case h_2 x hm =>
    obtain rfl := Option.some.inj hn
    subst hm
    exact h.mode fun hs => by cases hs; exact .equals (.declared x)
  case h_3 role hm =>
    obtain rfl := Option.some.inj hn
    subst hm
    exact h.mode fun hs => by cases hs with | equals start => exact start.place
  case h_4 g hm =>
    obtain rfl := Option.some.inj hn
    subst hm
    exact h.mode fun hs => by cases hs with | openParen has => exact (Role.Spells.left has).place
  case h_5 p hm =>
    obtain ⟨mode', hmode, rfl⟩ := Option.map_eq_some_iff.mp hn
    subst hm
    exact h.mode fun hs => atOperand?_spells hs hmode
  case h_6 p e hm => exact atOperator?_spells h hm hn
  case h_7 o hm =>
    obtain rfl := Option.some.inj hn
    subst hm
    cases h with
    | mk outer previous current =>
      cases current with
      | openBrace opening => simpa using Spells.mk (.cons outer previous opening) .nil .statement
  case h_8 test consequent hm =>
    obtain rfl := Option.some.inj hn
    subst hm
    refine h.mode fun hs => ?_
    cases hs with
    | elseWord has condition consequent =>
      simpa using Mode.Spells.openBrace (.alternate has condition consequent)
  case h_9 test consequent _ hm _ =>
    subst hm
    exact atStatement?_spells (settled_spells h) rfl hn
  case h_10 => simp at hn

theorem run?_spells {ls : List Kind} (h : s.Spells d ks) (hr : s.run? d ls = some t) :
    t.Spells d (ks ++ ls) := by
  induction ls generalizing s ks with
  | nil =>
    cases hr
    rwa [List.append_nil]
  | cons l ls ih =>
    rw [run?_cons, Option.bind_eq_some_iff] at hr
    have ⟨u, hu, hr⟩ := hr
    rw [List.append_cons]
    exact ih (next?_spells h hu) hr

theorem statements_of_program? {p : Program} (hr : start.run? d ks = some s)
    (hp : s.program? = some p) : Statements d ks p := by
  have hstart : start.Spells d ([] ++ ([] ++ [])) := .mk .nil .nil .statement
  have hs : s.settled.Spells d ks := by simpa using settled_spells (run?_spells hstart hr)
  simp only [program?] at hp
  split at hp
  case h_1 before heq =>
    obtain rfl := Option.some.inj hp
    rw [heq] at hs
    cases hs with
    | mk outer previous current =>
      cases outer
      cases current
      simpa using previous
  case h_2 => simp at hp

end State

end Parser

namespace Dialect

open Imp.Parser

variable {d : Dialect} {ts us : List Token} {p q : Program}

-- The kinds of the tokens before the first end of input.
def kinds (ts : List Token) : List Token.Kind :=
  (ts.takeWhile (·.kind ≠ .eof)).map Token.kind

theorem exists_find?_eof (h : ∃ t ∈ ts, t.kind = .eof) :
    ∃ t, ts.find? (·.kind = .eof) = some t := by
  have ⟨t, ht, hk⟩ := h
  exact Option.isSome_iff_exists.mp (List.find?_isSome.mpr ⟨t, ht, by simp [hk]⟩)

theorem parseTokens_eq_ok (h : ∃ t ∈ ts, t.kind = .eof) :
    d.parseTokens ts = .ok p ↔
      ∃ s, State.start.run? d (kinds ts) = some s ∧ s.program? = some p := by
  have ⟨t, ht⟩ := exists_find?_eof h
  simp only [parseTokens, ht, bind_eq_ok, State.feed_eq_ok, State.finish_eq_ok]
  rfl

theorem parseTokens_eq_ok_iff (h : ∃ t ∈ ts, t.kind = .eof) :
    d.parseTokens ts = .ok p ↔ Statements d (kinds ts) p := by
  rw [parseTokens_eq_ok h]
  exact ⟨fun ⟨s, hr, hp⟩ => State.statements_of_program? hr hp, program?_of_statements⟩

theorem eof_not_mem {ks : List Token.Kind} (h : Statements d ks p) : .eof ∉ ks := by
  have ⟨_, hs, _⟩ := program?_of_statements h
  exact State.eof_not_mem_of_run? hs

theorem statements_unique {ks : List Token.Kind} (hp : Statements d ks p)
    (hq : Statements d ks q) : p = q := by
  have ⟨s, hs, hp⟩ := program?_of_statements hp
  have ⟨t, ht, hq⟩ := program?_of_statements hq
  obtain rfl := Option.some.inj (hs.symm.trans ht)
  exact Option.some.inj (hp.symm.trans hq)

-- Token lists that have an end of input are parsed as the grammar says: exactly what it derives is
-- read, as the one program it stands for, whatever the places and whatever follows the end.
theorem parseTokens_grammatical (h : ∃ t ∈ ts, t.kind = .eof) :
    (∀ p, d.parseTokens ts = .ok p ↔ Statements d (kinds ts) p) ∧
      (∀ p q, Statements d (kinds ts) p → Statements d (kinds ts) q → p = q) ∧
      ∀ us p, (∃ t ∈ us, t.kind = .eof) → kinds us = kinds ts →
        (d.parseTokens us = .ok p ↔ d.parseTokens ts = .ok p) := by
  refine ⟨fun p => parseTokens_eq_ok_iff h, fun p q => statements_unique, fun us p hu hk => ?_⟩
  rw [parseTokens_eq_ok_iff h, parseTokens_eq_ok_iff hu, hk]

-- Differences and products, and tokens behind the end.
def difference : List Token :=
  [⟨.ident "x", 0⟩, ⟨.assign, 2⟩, ⟨.number 9, 4⟩, ⟨.operator .sub, 6⟩, ⟨.number 3, 8⟩,
    ⟨.operator .sub, 10⟩, ⟨.number 2, 12⟩, ⟨.operator .mul, 14⟩, ⟨.ident "x", 16⟩,
    ⟨.semicolon, 17⟩, ⟨.eof, 18⟩, ⟨.elseWord, 18⟩]

theorem difference_grammatical :
    ∃ e, e = .bin .sub (.bin .sub (.num 9) (.num 3)) (.bin .mul (.num 2) (.var "x")) ∧
      Statements .loop (kinds difference) [.assign "x" e] ∧
      ∀ q, Statements .loop (kinds difference) q → q = [.assign "x" e] := by
  have ⟨hparse, hone, _⟩ := @parseTokens_grammatical .loop difference (by decide)
  have h := (hparse _).mp (by rfl)
  exact ⟨_, rfl, h, fun q hq => hone _ _ hq h⟩

end Dialect

end Imp
