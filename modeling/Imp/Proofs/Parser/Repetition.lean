import Imp.Proofs.Parser.Descent
import Imp.Proofs.Parser.Viability
import Mathlib.Logic.Relation

/-!
The parser on tokens of which the last one stands again and again.
-/

open Relation

namespace Imp

namespace Parser

open Token (Kind)

variable {d : Dialect} {ts : List Token} {i n : Nat} {s t u : State}

-- The first tokens, the repeated ones included.
def upTo (ts : List Token) (n : Nat) : List Token :=
  (List.range n).map (current ts)

theorem upTo_succ (ts : List Token) (n : Nat) : upTo ts (n + 1) = upTo ts n ++ [current ts n] := by
  simp [upTo, List.range_succ]

theorem current_of_le (h : ts.length ≤ i) : current ts i = current ts ts.length := by
  simp [current, List.getElem?_eq_none h]

theorem current_of_lt (h : i < ts.length) : current ts i = ts[i] := by
  simp [current, h]

theorem current_min (ts : List Token) (n : Nat) : current ts (min n ts.length) = current ts n := by
  cases Nat.le_total n ts.length with
  | inl h => rw [Nat.min_eq_left h]
  | inr h => rw [Nat.min_eq_right h, current_of_le h]

theorem next_min (ts : List Token) (n : Nat) :
    next ts (min n ts.length) = min (n + 1) ts.length := by
  unfold next
  split <;> omega

theorem getElem_repeated {m : Nat}
    (h : i < (ts ++ List.replicate m (current ts ts.length)).length) :
    (ts ++ List.replicate m (current ts ts.length))[i] = current ts i := by
  by_cases hi : i < ts.length
  case pos => rw [List.getElem_append_left hi, current_of_lt hi]
  case neg =>
    have hi := Nat.le_of_not_lt hi
    rw [List.getElem_append_right hi, List.getElem_replicate, current_of_le hi]

theorem upTo_eq_take {m : Nat} (h : n ≤ ts.length + m) :
    upTo ts n = (ts ++ List.replicate m (current ts ts.length)).take n := by
  refine List.ext_getElem (by simp [upTo, h]) fun i _ _ => ?_
  rw [List.getElem_take, getElem_repeated]
  simp [upTo]

-- One token is taken, and the place moves on.
def Takes (d : Dialect) (ts : List Token) (a b : State × Nat) : Prop :=
  a.1.next? d (current ts a.2).kind = some b.1 ∧ b.2 = next ts a.2

abbrev Leads (d : Dialect) (ts : List Token) : State × Nat → State × Nat → Prop :=
  ReflTransGen (Takes d ts)

-- The token at a place cannot stand there.
structure Refuses (d : Dialect) (ts : List Token) (s : State) (i : Nat) (e : ParseError) : Prop
    where
  next?_eq : s.next? d (current ts i).kind = none
  program?_eq : (current ts i).kind = .eof → s.program? = none
  eq : e = s.refusal (current ts i)

theorem Leads.exists_run? (h : Leads d ts (s, 0) (t, i)) :
    ∃ n, s.run? d ((upTo ts n).map Token.kind) = some t ∧ i = min n ts.length := by
  suffices ∀ b, Leads d ts (s, 0) b →
      ∃ n, s.run? d ((upTo ts n).map Token.kind) = some b.1 ∧ b.2 = min n ts.length from this _ h
  intro b h
  induction h with
  | refl => exact ⟨0, rfl, by simp⟩
  | @tail b c _ hstep ih =>
    have ⟨n, hrun, hn⟩ := ih
    have ⟨hnext, hc⟩ := hstep
    rw [hn, current_min] at hnext
    refine ⟨n + 1, ?_, by rw [hc, hn, next_min]⟩
    rw [upTo_succ, List.map_append, State.run?_append_of_run? hrun]
    exact State.run?_cons_of_next? hnext

namespace State

-- Open blocks and parentheses.
def depth (s : State) : Nat :=
  s.frames.length +
    match s.mode with
    | .operand p | .operator p _ => p.outer.length
    | _ => 0

-- A token opens at most one block or parenthesis. What comes back to a place where it can stand
-- again has closed one, but for an opening parenthesis.
def Deepens (d : Dialect) (k : Kind) (n : Nat) (t : State) : Prop :=
  t.depth ≤ n + 1 ∧ (k ≠ .openParen → t.next? d k = none ∨ t.depth < n)

theorem deepens_of_close? (h : s.close? = some t) : Deepens d .closeBrace s.frames.length t := by
  obtain ⟨frames, before, mode⟩ := s
  cases frames with
  | nil => cases h
  | cons f frames =>
    obtain ⟨opening, outer⟩ := f
    cases opening <;> cases h <;> simp [Deepens, depth] <;> omega

theorem deepens_of_atStatement? {k : Kind} (h : s.atStatement? d k = some t) :
    Deepens d k s.frames.length t := by
  cases k with
  | varWord | ident | whileWord =>
    cases h
    exact ⟨by simp [depth], fun _ => .inl rfl⟩
  | ifWord =>
    simp only [atStatement?] at h
    split at h <;> cases h
    exact ⟨by simp [depth], fun _ => .inl rfl⟩
  | closeBrace => exact deepens_of_close? h
  | _ => cases h

theorem deepens_of_atEnd? {e : Expr} {role : Role} {k : Kind} (h : s.atEnd? e role k = some t) :
    Deepens d k s.frames.length t := by
  cases role with
  | declared | assigned =>
    cases k with
    | semicolon =>
      cases h
      exact ⟨by simp [depth, add], fun _ => .inl rfl⟩
    | _ => cases h
  | left g =>
    cases k with
    | relation =>
      cases h
      exact ⟨by simp [depth, Role.place], fun _ => .inl rfl⟩
    | _ => cases h
  | right g l r =>
    cases k with
    | closeParen =>
      cases h
      exact ⟨by simp [depth], fun _ => .inl rfl⟩
    | _ => cases h

theorem atOperator?_number (p : Place) (e : Expr) (v : Int32) :
    s.atOperator? p e (.number v) = none := by
  obtain ⟨role, level, outer⟩ := p
  cases outer <;> cases role <;> rfl

theorem atOperator?_ident (p : Place) (e : Expr) (x : String) :
    s.atOperator? p e (.ident x) = none := by
  obtain ⟨role, level, outer⟩ := p
  cases outer <;> cases role <;> rfl

theorem deepens_of_atOperator? {p : Place} {e : Expr} {k : Kind} {n : Nat}
    (hn : n = s.frames.length + p.outer.length) (h : s.atOperator? p e k = some t) :
    Deepens d k n t := by
  obtain ⟨role, level, outer⟩ := p
  subst hn
  cases k with
  | operator op =>
    cases op <;> cases h <;> exact ⟨by simp [depth], fun _ => .inl rfl⟩
  | closeParen =>
    cases outer with
    | nil => exact deepens_of_atEnd? h
    | cons level' outer =>
      cases h
      simp [Deepens, depth, Place.after]
      omega
  | _ =>
    cases outer with
    | nil => exact deepens_of_atEnd? h
    | cons => cases h

theorem deepens_of_next? {k : Kind} (h : s.next? d k = some t) : Deepens d k s.depth t := by
  obtain ⟨frames, before, mode⟩ := s
  cases mode with
  | statement => exact deepens_of_atStatement? h
  | elseWord test u =>
    by_cases hk : k = .elseWord
    case pos =>
      cases hk
      cases h
      exact ⟨by simp [depth], fun _ => .inl rfl⟩
    case neg =>
      rw [next?_of_settled rfl rfl hk] at h
      have := deepens_of_atStatement? h
      exact this
  | declaredName =>
    cases k with
    | ident =>
      cases h
      exact ⟨by simp [depth], fun _ => .inl rfl⟩
    | _ => cases h
  | equals r =>
    cases k with
    | assign =>
      cases h
      exact ⟨by simp [depth, Role.place], fun _ => .inl rfl⟩
    | _ => cases h
  | openParen g =>
    cases k with
    | openParen =>
      cases h
      exact ⟨by simp [depth, Role.place], fun hk => absurd rfl hk⟩
    | _ => cases h
  | operand p =>
    cases k with
    | number =>
      cases h
      exact ⟨by simp [depth, Place.after], fun _ => .inl (atOperator?_number ..)⟩
    | ident =>
      cases h
      exact ⟨by simp [depth, Place.after], fun _ => .inl (atOperator?_ident ..)⟩
    | openParen =>
      cases h
      exact ⟨by simp [depth]; omega, fun hk => absurd rfl hk⟩
    | _ => cases h
  | operator p e => exact deepens_of_atOperator? rfl h
  | openBrace o =>
    cases k with
    | openBrace =>
      cases h
      exact ⟨by simp [depth], fun _ => .inl rfl⟩
    | _ => cases h

theorem depth_le_of_run? {ks : List Kind} (h : s.run? d ks = some t) :
    t.depth ≤ s.depth + ks.length := by
  induction ks generalizing s with
  | nil =>
    cases h
    simp
  | cons k ks ih =>
    rw [run?_cons, Option.bind_eq_some_iff] at h
    have ⟨u, hu, hrun⟩ := h
    have := (deepens_of_next? hu).1
    have := ih hrun
    rw [List.length_cons]
    omega

theorem length_le_of_run?_replicate {k : Kind} {m : Nat} (hk : k ≠ .openParen)
    (h : s.run? d (List.replicate m k) = some t) : m ≤ s.depth + 1 := by
  induction m generalizing s with
  | zero => omega
  | succ m ih =>
    rw [List.replicate_succ, run?_cons, Option.bind_eq_some_iff] at h
    have ⟨u, hu, hrun⟩ := h
    cases (deepens_of_next? hu).2 hk with
    | inl hnone =>
      cases m with
      | zero => omega
      | succ m => simp [List.replicate_succ, run?_cons, hnone] at hrun
    | inr hlt =>
      have := ih hrun
      omega

theorem feed_eq_error {us vs : List Token} {token : Token}
    (h : s.run? d (us.map Token.kind) = some t) (hn : t.next? d token.kind = none) :
    s.feed d (us ++ token :: vs) = .error (t.refusal token) := by
  induction us generalizing s with
  | nil =>
    cases h
    simp [feed, hn]
  | cons u us ih =>
    rw [List.map_cons, run?_cons, Option.bind_eq_some_iff] at h
    obtain ⟨s', hs', hrun⟩ := h
    simp only [List.cons_append, feed, hs']
    exact ih hrun

-- Reading comes to a token that cannot stand in its place, or to the end, and fails there.
theorem feed_bind_eq_error {us : List Token} {f : State → Except ParseError Program}
    {e : ParseError} (hn : n ≤ us.length)
    (hrun : s.run? d ((us.take n).map Token.kind) = some t)
    (hlt : ∀ h : n < us.length, t.next? d us[n].kind = none ∧ t.refusal us[n] = e)
    (hend : n = us.length → f t = .error e) : s.feed d us >>= f = .error e := by
  cases Nat.lt_or_eq_of_le hn with
  | inl h =>
    have ⟨hnext, he⟩ := hlt h
    have hus : us = us.take n ++ us[n] :: us.drop (n + 1) := by simp
    rw [hus, feed_eq_error hrun hnext, he]
    rfl
  | inr h =>
    rw [h, List.take_length] at hrun
    rw [feed_eq_ok.mpr hrun]
    exact hend h

end State

theorem current_succ (h : ts.length ≤ n + 1) : current ts (n + 1) = current ts n := by
  have hnone : ts[n + 1]? = none := List.getElem?_eq_none h
  cases Nat.lt_or_ge n ts.length with
  | inl hlt =>
    have hlast : ts.length - 1 = n := by omega
    simp [current, hnone, List.getLast?_eq_getElem?, hlast, hlt]
  | inr hge => rw [current_of_le hge, current_of_le (Nat.le_succ_of_le hge)]

theorem eof_not_mem_upTo (hrun : s.run? d ((upTo ts n).map Token.kind) = some t) (hi : i < n) :
    (current ts i).kind ≠ .eof := by
  intro heof
  refine State.eof_not_mem_of_run? hrun (List.mem_map.mpr ⟨current ts i, ?_, heof⟩)
  exact List.mem_map_of_mem (List.mem_range.mpr hi)

-- An end of input behind all of the tokens is there only if there are none.
theorem eq_nil_of_eof (hrun : s.run? d ((upTo ts n).map Token.kind) = some t)
    (hn : ts.length ≤ n) (heof : (current ts n).kind = .eof) : ts = [] ∧ n = 0 := by
  cases n with
  | zero => exact ⟨List.length_eq_zero_iff.mp (Nat.le_zero.mp hn), rfl⟩
  | succ m =>
    rw [current_succ hn] at heof
    exact absurd heof (eof_not_mem_upTo hrun (Nat.lt_succ_self m))

-- Behind the last token, each repetition but the first closes what one of the tokens has opened.
theorem le_of_run?_upTo (hk : (current ts ts.length).kind ≠ .openParen)
    (hrun : State.start.run? d ((upTo ts n).map Token.kind) = some s) :
    n ≤ ts.length + (ts.length + 1) := by
  cases Nat.le_total n ts.length with
  | inl hle => omega
  | inr hle =>
    obtain ⟨m, rfl⟩ := Nat.exists_eq_add_of_le hle
    have htake : upTo ts (ts.length + m) = ts ++ List.replicate m (current ts ts.length) := by
      rw [upTo_eq_take (Nat.le_refl _), List.take_of_length_le (by simp)]
    rw [htake, List.map_append, List.map_replicate, State.run?_append,
      Option.bind_eq_some_iff] at hrun
    have ⟨u, hu, hrepeat⟩ := hrun
    have hdepth := State.depth_le_of_run? hu
    have hm := State.length_le_of_run?_replicate hk hrepeat
    rw [List.length_map] at hdepth
    have hstart : State.start.depth = 0 := rfl
    omega

end Parser

namespace Dialect

open Imp.Parser

variable {d : Dialect} {ts : List Token} {i : Nat} {s : State} {e : ParseError} {p : Program}

-- Tokens that cannot be read again and again behind the last one.
def Exhaustible (ts : List Token) : Prop :=
  (∃ t ∈ ts, t.kind = .eof) ∨ ∀ t ∈ ts.getLast?, t.kind ≠ .openParen

theorem parseTokens_of_eof (hs : Leads d ts (State.start, 0) (s, i))
    (hk : (current ts i).kind = .eof) (hp : s.program? = some p) : d.parseTokens ts = .ok p := by
  have ⟨n, hrun, hi⟩ := hs.exists_run?
  rw [hi, current_min] at hk
  by_cases hn : n < ts.length
  case pos =>
    rw [current_of_lt hn] at hk
    have heof := State.eof_not_mem_of_run? hrun
    rw [upTo_eq_take (Nat.le_add_right_of_le (Nat.le_of_lt hn)), List.replicate_zero,
      List.append_nil] at hrun heof
    have hsplit : ts.take n ++ ts[n] :: ts.drop (n + 1) = ts := by simp
    have hts : ts.map Token.kind =
        (ts.take n).map Token.kind ++ .eof :: (ts.drop (n + 1)).map Token.kind := by
      rw [← hk, ← List.map_cons, ← List.map_append, hsplit]
    refine (parseTokens_eq_ok ⟨ts[n], List.getElem_mem hn, hk⟩).mpr ⟨s, ?_, hp⟩
    rwa [kinds_eq_append hts heof, List.takeWhile_cons_of_neg (by simp), List.append_nil]
  case neg =>
    obtain ⟨rfl, rfl⟩ := eq_nil_of_eof hrun (Nat.le_of_not_lt hn) hk
    cases hrun
    cases hp
    rfl

section Refused

variable {n : Nat} (hrun : State.start.run? d ((upTo ts n).map Token.kind) = some s)
  (hr : Refuses d ts s n e)
include hrun hr

-- The token is the end of the input, or in front of it.
theorem parseTokens_of_refuses_eof (heof : ∃ t ∈ ts, t.kind = .eof) :
    d.parseTokens ts = .error e := by
  have ⟨hnext, hprogram, he⟩ := hr
  obtain ⟨front, last, rest, rfl, hkind, hfront, hparse⟩ := exists_front heof
  have hlast : current (front ++ last :: rest) front.length = last := by simp [current]
  have hle : n ≤ front.length := by
    refine Nat.le_of_not_lt fun hlt => eof_not_mem_upTo hrun hlt ?_
    rw [hlast, hkind]
  have htake : upTo (front ++ last :: rest) n = front.take n := by
    rw [upTo_eq_take (m := 0) (by simp; omega)]
    simp [List.take_append_of_le_length hle]
  rw [hparse]
  refine State.feed_bind_eq_error hle (htake ▸ hrun) (fun h => ?_) fun h => ?_
  case refine_1 =>
    have hlt : n < (front ++ last :: rest).length := by simp; omega
    have hn := (current_of_lt hlt).trans (List.getElem_append_left h)
    exact ⟨hn ▸ hnext, hn ▸ he.symm⟩
  case refine_2 =>
    rw [h, hlast] at hprogram he
    exact State.finish_eq_error.mpr ⟨hprogram hkind, he.symm⟩

-- There is no end of the input, and the token may be a repetition of the last one.
theorem parseTokens_of_refuses_repeated (hlast : ∀ t ∈ ts.getLast?, t.kind ≠ .openParen)
    (heof : ¬∃ t ∈ ts, t.kind = .eof) : d.parseTokens ts = .error e := by
  have ⟨hnext, hprogram, he⟩ := hr
  cases ht : ts.getLast? with
  | none =>
    -- There is no token, and a program may end here.
    obtain rfl := List.getLast?_eq_none_iff.mp ht
    obtain ⟨-, rfl⟩ := eq_nil_of_eof hrun (Nat.zero_le n) rfl
    cases hrun
    nomatch hprogram rfl
  | some t =>
    obtain rfl : current ts ts.length = t := by simp [current, ht]
    have hle : n ≤ ts.length + (ts.length + 1) := le_of_run?_upTo (hlast _ ht) hrun
    have hnone : ts.find? (·.kind = .eof) = none := by simpa using heof
    rw [upTo_eq_take hle] at hrun
    simp only [parseTokens, hnone, ht]
    refine State.feed_bind_eq_error (by simpa using hle) hrun (fun h => ?_) fun h => ?_
    case refine_1 => exact getElem_repeated h ▸ ⟨hnext, he.symm⟩
    case refine_2 =>
      have hn : ts.length ≤ n := by simp at h; omega
      rw [he, current_of_le hn]

end Refused

theorem parseTokens_of_refuses (hts : Exhaustible ts) (hs : Leads d ts (State.start, 0) (s, i))
    (hr : Refuses d ts s i e) : d.parseTokens ts = .error e := by
  have ⟨n, hrun, hi⟩ := hs.exists_run?
  have hr : Refuses d ts s n e := by
    have ⟨hnext, hprogram, he⟩ := hr
    rw [hi, current_min] at hnext hprogram he
    exact ⟨hnext, hprogram, he⟩
  by_cases heof : ∃ t ∈ ts, t.kind = .eof
  case pos => exact parseTokens_of_refuses_eof hrun hr heof
  case neg => exact parseTokens_of_refuses_repeated hrun hr (hts.resolve_left heof) heof

end Dialect

end Imp
