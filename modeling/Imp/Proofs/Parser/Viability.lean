import Imp.Proofs.Parser.Soundness

/-!
A parse error is at the first token that no program goes on with.

Whatever has been read can go on to a program: an operand is completed by its closing parentheses
and by the rest of its statement, and then every open block is closed.
-/

namespace Imp

open Grammar

namespace Parser.State

open Token (Kind)

variable {d : Dialect} {s t : State} {k : Kind} {ks : List Kind}

-- Some tokens lead to the end of a program.
def Completable (d : Dialect) (s : State) : Prop :=
  ∃ ks t p, s.run? d ks = some t ∧ t.program? = some p

namespace Completable

theorem of_run? (hr : s.run? d ks = some t) : t.Completable d → s.Completable d
  | ⟨ls, u, p, hrun, hp⟩ => ⟨ks ++ ls, u, p, (run?_append_of_run? hr).trans hrun, hp⟩

theorem of_next? (k : Kind) (hn : s.next? d k = some t) (ht : t.Completable d) :
    s.Completable d := by
  have hrun : s.run? d [k] = some t := run?_cons_of_next? hn
  exact of_run? hrun ht

variable {frames : List Frame} {before : Program}

theorem exists_close? (f : Frame) (frames : List Frame) (before : Program) :
    ∃ t before', close? ⟨f :: frames, before, .statement⟩ = some t ∧
      t.settled = ⟨frames, before', .statement⟩ := by
  obtain ⟨opening, outer⟩ := f
  cases opening <;> exact ⟨_, _, rfl, rfl⟩

-- Where a statement could stand, the open blocks can be closed.
theorem of_settled (hs : s.settled = ⟨frames, before, .statement⟩) : s.Completable d := by
  induction frames generalizing s before with
  | nil => exact ⟨[], s, before.reverse, rfl, by simp [program?, hs]⟩
  | cons f frames ih =>
    obtain ⟨t, before', hclose, ht⟩ := exists_close? f frames before
    have hnext := (next?_of_settled (d := d) (k := .closeBrace) hs rfl (by simp)).trans hclose
    exact of_next? .closeBrace hnext (ih ht)

theorem openBrace (o : Opening) : Completable d ⟨frames, before, .openBrace o⟩ :=
  of_next? .openBrace rfl (of_settled rfl)

-- Behind an expression outside of parentheses, up to where its condition or statement ends.
theorem right (g : Guard) (l : Expr) (rel : Relation) (level : Pending) (e : Expr) :
    Completable d ⟨frames, before, .operator ⟨.right g l rel, level, []⟩ e⟩ :=
  of_next? .closeParen rfl (openBrace _)

theorem role (role : Role) (level : Pending) (e : Expr) :
    Completable d ⟨frames, before, .operator ⟨role, level, []⟩ e⟩ := by
  cases role with
  | declared x | assigned x => exact of_next? .semicolon rfl (of_settled rfl)
  | left g => exact of_next? (.relation .eq) rfl (of_next? (.number 0) rfl (right ..))
  | right g l rel => exact right ..

theorem operator (p : Place) (e : Expr) : Completable d ⟨frames, before, .operator p e⟩ := by
  obtain ⟨r, level, outer⟩ := p
  induction outer generalizing level e with
  | nil => exact role r level e
  | cons _ outer ih => exact of_next? .closeParen rfl (ih ..)

theorem operand (p : Place) : Completable d ⟨frames, before, .operand p⟩ :=
  of_next? (.number 0) rfl (operator ..)

theorem equals (r : Role) : Completable d ⟨frames, before, .equals r⟩ :=
  of_next? .assign rfl (operand _)

end Completable

theorem completable (d : Dialect) (s : State) : s.Completable d := by
  obtain ⟨frames, before, mode⟩ := s
  cases mode with
  | statement | elseWord => exact .of_settled rfl
  | declaredName => exact .of_next? (.ident "x") rfl (.equals _)
  | equals role => exact .equals role
  | openParen g => exact .of_next? .openParen rfl (.operand _)
  | operand p => exact .operand p
  | operator p e => exact .operator p e
  | openBrace o => exact .openBrace o

-- Reading fails at a token that cannot stand behind those before it.
theorem exists_of_feed_error {ts : List Token} {e : ParseError} (h : s.feed d ts = .error e) :
    ∃ us t vs u, ts = us ++ t :: vs ∧ s.run? d (us.map Token.kind) = some u ∧
      u.next? d t.kind = none ∧ e = u.refusal t := by
  induction ts generalizing s with
  | nil => cases h
  | cons t ts ih =>
    simp only [feed] at h
    cases hn : s.next? d t.kind with
    | none =>
      rw [hn] at h
      exact ⟨[], t, ts, s, rfl, rfl, hn, (Except.error.inj h).symm⟩
    | some s' =>
      rw [hn] at h
      obtain ⟨us, t', vs, u, rfl, hrun, hnone, he⟩ := ih h
      exact ⟨t :: us, t', vs, u, rfl, (run?_cons_of_next? hn).trans hrun, hnone, he⟩

theorem finish_eq_error {token : Token} {e : ParseError} :
    s.finish token = .error e ↔ s.program? = none ∧ s.refusal token = e := by
  simp only [finish]
  split <;> simp_all

end Parser.State

namespace Dialect

open Imp.Parser
open Token (Kind)

variable {d : Dialect} {ts us : List Token} {k : Kind} {ks ls : List Kind}
  {e : ParseError} {p : Program}

theorem kinds_eq_append (h : us.map Token.kind = ks ++ ls) (hks : .eof ∉ ks) :
    kinds us = ks ++ ls.takeWhile (· ≠ .eof) := by
  have hkinds : kinds us = (us.map Token.kind).takeWhile (· ≠ .eof) := by
    simp [kinds, List.takeWhile_map, Function.comp_def]
  have hall : ∀ k ∈ ks, decide (k ≠ .eof) := fun k hk => decide_eq_true fun heq => hks (heq ▸ hk)
  rw [hkinds, h, List.takeWhile_append_of_pos hall]

-- Token lists as the lexer makes them: the last one, and no other, is the end of input.
def Ended (ts : List Token) : Prop :=
  ∃ us t, ts = us ++ [t] ∧ t.kind = .eof ∧ ∀ u ∈ us, u.kind ≠ .eof

theorem Ended.exists_eof (h : Ended ts) : ∃ t ∈ ts, t.kind = .eof := by
  obtain ⟨us, t, rfl, ht, -⟩ := h
  exact ⟨t, by simp, ht⟩

-- A program is never read from anything but what the grammar derives.
theorem statements_of_parseTokens (h : d.parseTokens ts = .ok p) : Statements d (kinds ts) p := by
  by_cases heof : ∃ t ∈ ts, t.kind = .eof
  case pos => exact (parseTokens_eq_ok_iff heof).mp h
  case neg =>
    have hnone : ts.find? (·.kind = .eof) = none := by simpa using heof
    simp only [parseTokens, hnone] at h
    split at h
    case h_1 heq => cases heq
    case h_2 hlast =>
      obtain rfl := List.getLast?_eq_none_iff.mp hlast
      have hp : [] = p := Except.ok.inj h
      exact hp ▸ .nil
    case h_3 =>
      obtain ⟨_, -, herror⟩ := bind_eq_ok.mp h
      cases herror

-- Kinds that the grammar derives a program from are those of a token list.
theorem exists_ended_of_statements (h : Statements d ks p) :
    ∃ us, Ended us ∧ us.map Token.kind = ks ++ [.eof] ∧ d.parseTokens us = .ok p := by
  have heof := eof_not_mem h
  let us : List Token := ks.map fun k => ⟨k, 0⟩
  let eof : Token := ⟨.eof, 0⟩
  have hkinds : us.map Token.kind = ks := by simp [us, Function.comp_def]
  have hall : (us ++ [eof]).map Token.kind = ks ++ [.eof] := by simp [hkinds, eof]
  have hended : Ended (us ++ [eof]) :=
    ⟨us, eof, rfl, rfl, fun u hu hk => heof (hkinds ▸ hk ▸ List.mem_map_of_mem hu)⟩
  refine ⟨us ++ [eof], hended, hall, (parseTokens_eq_ok_iff hended.exists_eof).mpr ?_⟩
  simpa [kinds_eq_append hall heof] using h

-- Kinds that have been read are those that a program starts with.
theorem exists_ended_of_run? {s : State} (h : State.start.run? d ks = some s) :
    ∃ us p, Ended us ∧ d.parseTokens us = .ok p ∧ ks <+: us.map Token.kind := by
  have ⟨ls, t, p, hrun, hp⟩ := s.completable d
  have hrun := (State.run?_append_of_run? h).trans hrun
  have hstatements := State.statements_of_program? hrun hp
  have ⟨us, hended, hkinds, hus⟩ := exists_ended_of_statements hstatements
  refine ⟨us, p, hended, hus, ?_⟩
  rw [hkinds, List.append_assoc]
  exact List.prefix_append ..

-- Where a kind cannot stand behind others, no program starts with all of them.
theorem not_prefix_of_next?_eq_none {s : State} (h : State.start.run? d ks = some s)
    (hn : s.next? d k = none) (hp : k = .eof → s.program? = none)
    (hus : d.parseTokens us = .ok p) : ¬ks ++ [k] <+: us.map Token.kind := by
  rintro ⟨ls, hls⟩
  have ⟨t, hrun, hprogram⟩ := program?_of_statements (statements_of_parseTokens hus)
  have hkinds := hls.symm.trans (List.append_assoc ..)
  rw [kinds_eq_append hkinds (State.eof_not_mem_of_run? h), State.run?_append_of_run? h] at hrun
  by_cases hk : k = .eof
  case pos =>
    subst hk
    obtain rfl : s = t := by simpa using hrun
    simp [hp rfl] at hprogram
  case neg => simp [hk, State.run?_cons, hn] at hrun

-- What is read is what stands in front of the first end of input.
theorem exists_front (h : ∃ t ∈ ts, t.kind = .eof) : ∃ front last rest,
    ts = front ++ last :: rest ∧ last.kind = .eof ∧ (∀ t ∈ front, t.kind ≠ .eof) ∧
      ∀ d : Dialect, d.parseTokens ts = State.start.feed d front >>= (·.finish last) := by
  have ⟨last, hlast⟩ := exists_find?_eof h
  obtain ⟨hkind, front, rest, rfl, hfront⟩ := List.find?_eq_some_iff_append.mp hlast
  have hkind : last.kind = .eof := by simpa using hkind
  have hfront : ∀ t ∈ front, t.kind ≠ .eof := by simpa using hfront
  have htake : (front ++ last :: rest).takeWhile (·.kind ≠ .eof) = front := by
    rw [List.takeWhile_append_of_pos (by simpa using hfront)]
    simp [hkind]
  exact ⟨front, last, rest, rfl, hkind, hfront, fun d => by simp only [parseTokens, hlast, htake]⟩

theorem exists_of_parseTokens_error (heof : ∃ t ∈ ts, t.kind = .eof)
    (h : d.parseTokens ts = .error e) :
    ∃ us t vs s, ts = us ++ t :: vs ∧ State.start.run? d (us.map Token.kind) = some s ∧
      s.next? d t.kind = none ∧ (t.kind = .eof → s.program? = none) ∧ e = s.refusal t := by
  obtain ⟨front, last, rest, rfl, hkind, hfront, hparse⟩ := exists_front heof
  rw [hparse] at h
  cases hfeed : State.start.feed d front with
  | error e' =>
    rw [hfeed] at h
    obtain rfl : e' = e := Except.error.inj h
    obtain ⟨us, t, vs, s, rfl, hrun, hnext, rfl⟩ := State.exists_of_feed_error hfeed
    have ht : t.kind ≠ .eof := hfront t (by simp)
    exact ⟨us, t, vs ++ last :: rest, s, by simp, hrun, hnext, fun h => absurd h ht, rfl⟩
  | ok s =>
    rw [hfeed] at h
    have hnone : s.program? = none ∧ s.refusal last = e := State.finish_eq_error.mp h
    have hnext : s.next? d last.kind = none := hkind ▸ State.next?_eof d s
    exact ⟨front, last, rest, s, rfl, State.feed_eq_ok.mp hfeed, hnext, fun _ => hnone.1,
      hnone.2.symm⟩

-- An error is at a token such that some program goes on from what is before it, and none from there
-- with that token.
theorem first_impossible_of_parseTokens_error (heof : ∃ t ∈ ts, t.kind = .eof)
    (h : d.parseTokens ts = .error e) :
    ∃ i t, ts[i]? = some t ∧ e.position = t.position ∧ e.found = t.kind ∧
      (∃ us p, Ended us ∧ d.parseTokens us = .ok p ∧
        (ts.take i).map Token.kind <+: us.map Token.kind) ∧
      ∀ us p, d.parseTokens us = .ok p →
        ¬(ts.take (i + 1)).map Token.kind <+: us.map Token.kind := by
  obtain ⟨us, t, vs, s, rfl, hrun, hnext, hend, rfl⟩ := exists_of_parseTokens_error heof h
  refine ⟨us.length, t, by simp, rfl, rfl, ?_, fun ws p hws => ?_⟩
  case refine_1 => simpa using exists_ended_of_run? hrun
  case refine_2 =>
    have htake : (us ++ t :: vs).take (us.length + 1) = us ++ [t] := by
      rw [List.append_cons]
      exact List.take_left' (by simp)
    rw [htake, List.map_append]
    exact not_prefix_of_next?_eq_none hrun hnext hend hws

-- A parenthesis that is still open at the end of its statement.
def unclosed : List Token :=
  [⟨.ident "x", 0⟩, ⟨.assign, 2⟩, ⟨.openParen, 4⟩, ⟨.number 1, 5⟩, ⟨.operator .add, 7⟩,
    ⟨.number 2, 9⟩, ⟨.semicolon, 10⟩, ⟨.eof, 11⟩]

theorem unclosed_first_impossible :
    full.parseTokens unclosed = .error ⟨10, .closeParen, .semicolon⟩ ∧
      (∃ us p, Ended us ∧ full.parseTokens us = .ok p ∧
        (unclosed.take 6).map Token.kind <+: us.map Token.kind) ∧
      ∀ us p, full.parseTokens us = .ok p →
        ¬(unclosed.take 7).map Token.kind <+: us.map Token.kind := by
  have herror : full.parseTokens unclosed = .error ⟨10, .closeParen, .semicolon⟩ := by rfl
  have ⟨i, t, ht, hposition, _, hbefore, hbehind⟩ :=
    first_impossible_of_parseTokens_error (by decide) herror
  have hindex : ∀ i < 8, (unclosed[i]?).map Token.position = some 10 → i = 6 := by decide
  have hlt : i < 8 := (List.getElem?_eq_some_iff.mp ht).1
  obtain rfl := hindex i hlt (by simp [ht, ← hposition])
  exact ⟨herror, hbefore, hbehind⟩

end Dialect

end Imp
