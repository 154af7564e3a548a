import Imp.Proofs.Parser.Repetition

/-!
What it takes for a procedure of the parser to come to an end and to read what the machine of the
parser reads, and how that is put together from the parts of a procedure.
-/

open Relation

namespace Imp

namespace Parser

open Token (Kind)

-- The first end of input, or else the end of the tokens.
def bound (ts : List Token) : Nat :=
  ts.findIdx (·.kind = .eof)

namespace Cursor

-- Passes have begun one behind the other, and none of them past the bound.
structure Orderly (ts : List Token) (c : Cursor) : Prop where
  position_le : c.position ≤ bound ts
  decreasing : c.passes.Pairwise (· > ·)
  le : ∀ q ∈ c.passes, q ≤ c.position

-- Tokens have been read in every pass.
def Clear (c : Cursor) : Prop :=
  ∀ q ∈ c.passes, q < c.position

structure Follows (ts : List Token) (c' c : Cursor) : Prop extends Orderly ts c' where
  le_position : c.position ≤ c'.position
  passes_suffix : c.passes <:+ c'.passes

variable {ts : List Token} {c c' c'' : Cursor}

theorem Follows.trans (h : c''.Follows ts c') (h' : c'.Follows ts c) : c''.Follows ts c where
  toOrderly := h.toOrderly
  le_position := Nat.le_trans h'.le_position h.le_position
  passes_suffix := h'.passes_suffix.trans h.passes_suffix

theorem Orderly.follows (h : c.Orderly ts) : c.Follows ts c where
  toOrderly := h
  le_position := Nat.le_refl _
  passes_suffix := List.suffix_refl _

theorem Orderly.mark (h : c.Orderly ts) (hclear : c.Clear) : c.mark.Follows ts c where
  position_le := h.position_le
  decreasing := List.pairwise_cons.mpr ⟨hclear, h.decreasing⟩
  le := List.forall_mem_cons.mpr ⟨Nat.le_refl _, h.le⟩
  le_position := Nat.le_refl _
  passes_suffix := List.suffix_cons _ _

-- A pass that has come to an end has read something.
theorem Follows.lt_of_mark (h : c'.Follows ts c.mark) (hclear : c'.Clear) :
    c.position < c'.position :=
  hclear c.position (h.passes_suffix.subset (.head _))

end Cursor

variable {d : Dialect} {ts : List Token} {c c' : Cursor} {s t : State} {α β : Type}

theorem kind_bound (h : bound ts < ts.length) : (current ts (bound ts)).kind = .eof := by
  rw [current_of_lt h]
  exact of_decide_eq_true (List.findIdx_getElem (w := h))

theorem bound_lt (h : ∃ t ∈ ts, t.kind = .eof) : bound ts < ts.length :=
  List.findIdx_lt_length_of_exists (by simpa using h)

theorem ne_openParen_at_bound (hts : Dialect.Exhaustible ts) :
    (current ts (bound ts)).kind ≠ .openParen := by
  by_cases heof : ∃ t ∈ ts, t.kind = .eof
  case pos =>
    rw [kind_bound (bound_lt heof)]
    nofun
  case neg =>
    have hbound : bound ts = ts.length := List.findIdx_eq_length_of_false (by simpa using heof)
    have hlast := hts.resolve_left heof
    cases hts : ts.getLast? with
    | none => simp [current, hbound, hts]
    | some t => simpa [current, hbound, hts] using hlast t hts

-- The token that is read is in front of the bound, or the last one, read once more.
theorem next_cases (hc : c.position ≤ bound ts) (hk : (current ts c.position).kind ≠ .eof) :
    (c.position < bound ts ∧ next ts c.position = c.position + 1) ∨
      (c.position = bound ts ∧ next ts c.position = c.position) := by
  have hle : bound ts ≤ ts.length := List.findIdx_le_length
  cases Nat.lt_or_eq_of_le hc with
  | inl hlt => exact .inl ⟨hlt, if_pos (by omega)⟩
  | inr heq =>
    rw [heq] at hk ⊢
    exact .inr ⟨rfl, if_neg fun hlt => hk (kind_bound hlt)⟩

theorem Cursor.Orderly.forward (h : c.Orderly ts) (hk : (current ts c.position).kind ≠ .eof) :
    (c.forward ts).Follows ts c := by
  have hposition : (c.forward ts).position = next ts c.position := rfl
  have hcases := next_cases h.position_le hk
  refine ⟨⟨by omega, h.decreasing, fun q hq => ?_⟩, by omega, List.suffix_refl _⟩
  have := h.le q hq
  omega

-- A kind cannot stand here, in place of something else.
structure State.Misses (d : Dialect) (s : State) (e : Expected) (k : Kind) : Prop where
  next?_eq : s.next? d k = none
  expected_eq : s.expected k = e
  program?_eq : k = .eof → s.program? = none

-- Within a statement, the input cannot end.
theorem State.misses_of_mode {e : Expected} {k : Kind} (hmode : s.settled.mode ≠ .statement)
    (hnext : s.next? d k = none) (he : s.expected k = e) : s.Misses d e k where
  next?_eq := hnext
  expected_eq := he
  program?_eq _ := by
    unfold program?
    split
    case h_1 hs => exact absurd (by rw [hs]) hmode
    case h_2 => rfl

theorem le_next (ts : List Token) (i : Nat) : i ≤ next ts i := by
  unfold next
  split <;> omega

theorem Cursor.Clear.forward (h : c.Clear) (ts : List Token) : (c.forward ts).Clear :=
  fun q hq => Nat.lt_of_lt_of_le (h q hq) (le_next ts c.position)

-- Behind a token that has been read, all passes are clear, or it stands at the bound once more.
theorem Cursor.Orderly.forward_cases (h : c.Orderly ts) {k : Kind}
    (hk : (current ts c.position).kind = k) (hne : k ≠ .eof) :
    (c.position < (c.forward ts).position ∧ (c.forward ts).Clear) ∨
      ((c.forward ts).position = bound ts ∧ (current ts (bound ts)).kind = k) := by
  have hposition : (c.forward ts).position = next ts c.position := rfl
  obtain ⟨-, hnext⟩ | ⟨heq, hnext⟩ := next_cases h.position_le (hk ▸ hne)
  case inl =>
    refine .inl ⟨by omega, fun q hq => ?_⟩
    have := h.le q hq
    omega
  case inr => exact .inr ⟨by omega, heq ▸ hk⟩

theorem Cursor.Orderly.clear_forward (h : c.Orderly ts) {k : Kind}
    (hk : (current ts c.position).kind = k) (hne : k ≠ .eof)
    (hother : (current ts (c.forward ts).position).kind ≠ k) : (c.forward ts).Clear := by
  obtain ⟨-, hclear⟩ | ⟨heq, hagain⟩ := h.forward_cases hk hne
  case inl => exact hclear
  case inr => exact absurd (heq ▸ hagain) hother

open Descent

variable {P : α → State → Nat → Prop} {Q : β → State → Nat → Prop}
variable {m : Nat → Descent α} {f : α → Nat → Descent β}

-- What comes back at every depth at which calls do not go too deep.
def Gives (m : Nat → Descent α) (c : Cursor) (r : Except ParseError α × Cursor) : Prop :=
  ∃ depth, ∀ n, depth ≤ n → m n c = some r

-- A procedure comes to an end, in good order. It has read what the machine of the parser reads, or
-- refuses what that refuses, and with the same error.
def Parses (d : Dialect) (ts : List Token) (m : Nat → Descent α) (s : State) (c : Cursor)
    (P : α → State → Nat → Prop) : Prop :=
  ∃ r c', Gives m c (r, c') ∧ c'.Follows ts c ∧
    match r with
    | .ok a => c'.Clear ∧ ∃ t, Leads d ts (s, c.position) (t, c'.position) ∧ P a t c'.position
    | .error e => ∃ t, Leads d ts (s, c.position) (t, c'.position) ∧ Refuses d ts t c'.position e

theorem bind_of_ok {m : Descent α} {f : α → Descent β} {a : α} (h : m c = some (.ok a, c')) :
    (m >>= f) c = f a c' := by
  have hbind : (m >>= f) c = (m c).bind fun r => ExceptT.bindCont f r.1 r.2 := rfl
  rw [hbind, h]
  rfl

theorem bind_of_error {m : Descent α} {f : α → Descent β} {e : ParseError}
    (h : m c = some (.error e, c')) : (m >>= f) c = some (.error e, c') := by
  have hbind : (m >>= f) c = (m c).bind fun r => ExceptT.bindCont f r.1 r.2 := rfl
  rw [hbind, h]
  rfl

theorem bind_of_none {m : Descent α} {f : α → Descent β} (h : m c = none) :
    (m >>= f) c = none := by
  have hbind : (m >>= f) c = (m c).bind fun r => ExceptT.bindCont f r.1 r.2 := rfl
  rw [hbind, h]
  rfl

theorem eat_eq (k : Kind) : eat ts k c =
    if (current ts c.position).kind = k then some (.ok true, c.forward ts)
    else some (.ok false, c) := by
  change (if (current ts c.position).kind = k then _ else _ : Descent Bool) c = _
  split <;> rfl

theorem expect_eq (k : Kind) (e : Expected) : expect ts k e c =
    if (current ts c.position).kind = k then some (.ok (), c.forward ts)
    else refuse ts e c := by
  unfold expect
  split
  case isTrue hk => rw [bind_of_ok (a := true) (by rw [eat_eq, if_pos hk])]; rfl
  case isFalse hk => rw [bind_of_ok (a := false) (by rw [eat_eq, if_neg hk])]; rfl

theorem take_eq (pick? : Kind → Option α) (e : Expected) : take ts pick? e c =
    match pick? (current ts c.position).kind with
    | some a => some (.ok a, c.forward ts)
    | none => refuse ts e c := by
  have hpeek : peek ts c = some (.ok (current ts c.position).kind, c) := rfl
  rw [take, bind_of_ok hpeek]
  cases pick? (current ts c.position).kind <;> rfl

namespace Gives

theorem congr {m' : Nat → Descent α} {r : Except ParseError α × Cursor} (h : Gives m' c' r)
    (hm : ∀ n, m n c = m' n c') : Gives m c r := by
  have ⟨depth, h⟩ := h
  exact ⟨depth, fun n hn => (hm n).trans (h n hn)⟩

-- A call goes one deeper.
theorem call {r : Except ParseError α × Cursor} (h : Gives (fun n => m (n + 1)) c r) :
    Gives m c r := by
  have ⟨depth, h⟩ := h
  refine ⟨depth + 1, fun n hn => ?_⟩
  cases n with
  | zero => omega
  | succ n => exact h n (by omega)

theorem bind_ok {a : α} {r : Except ParseError β × Cursor} (hm : Gives m c (.ok a, c'))
    (hf : Gives (f a) c' r) : Gives (fun n => m n >>= fun a => f a n) c r := by
  have ⟨depth, hm⟩ := hm
  have ⟨depth', hf⟩ := hf
  refine ⟨max depth depth', fun n hn => ?_⟩
  exact (bind_of_ok (hm n (by omega))).trans (hf n (by omega))

theorem bind_error {e : ParseError} (hm : Gives m c (.error e, c')) :
    Gives (fun n => m n >>= fun a => f a n) c (.error e, c') := by
  have ⟨depth, hm⟩ := hm
  exact ⟨depth, fun n hn => bind_of_error (hm n hn)⟩

end Gives

namespace Parses

theorem pure {a : α} (hc : c.Orderly ts) (hclear : c.Clear) (h : P a s c.position) :
    Parses d ts (fun _ => pure a) s c P :=
  ⟨.ok a, c, ⟨0, fun _ _ => rfl⟩, hc.follows, hclear, s, .refl, h⟩

theorem refuse {e : Expected} (hc : c.Orderly ts)
    (h : s.Misses d e (current ts c.position).kind) : Parses d ts (fun _ => refuse ts e) s c P :=
  ⟨.error _, c, ⟨0, fun _ _ => rfl⟩, hc.follows, s, .refl, h.next?_eq, h.program?_eq, by
    rw [← h.expected_eq]; rfl⟩

theorem call (h : Parses d ts (fun n => m (n + 1)) s c P) : Parses d ts m s c P := by
  obtain ⟨r, c', hrun, hr⟩ := h
  exact ⟨r, c', hrun.call, hr⟩

-- To go on from another place, behind tokens that have been read.
theorem onward {m' : Nat → Descent α} (hc : c'.Follows ts c)
    (ht : Leads d ts (s, c.position) (t, c'.position)) (h : Parses d ts m' t c' P)
    (hm : ∀ r, Gives m' c' r → Gives m c r) : Parses d ts m s c P := by
  obtain ⟨r, c'', hrun, hc'', hr⟩ := h
  refine ⟨r, c'', hm _ hrun, hc''.trans hc, ?_⟩
  cases r with
  | error e =>
    obtain ⟨u, hu, hrefuses⟩ := hr
    exact ⟨u, ht.trans hu, hrefuses⟩
  | ok a =>
    obtain ⟨hclear, u, hu, hP⟩ := hr
    exact ⟨hclear, u, ht.trans hu, hP⟩

theorem congr {m' : Nat → Descent α} (h : Parses d ts m' s c P) (hm : ∀ n, m n c = m' n c) :
    Parses d ts m s c P :=
  have ⟨r, c', hrun, hr⟩ := h
  ⟨r, c', hrun.congr hm, hr⟩

theorem bind (hm : Parses d ts m s c P)
    (hf : ∀ a t c', c'.Follows ts c → c'.Clear → P a t c'.position → Parses d ts (f a) t c' Q) :
    Parses d ts (fun n => m n >>= fun a => f a n) s c Q := by
  obtain ⟨r, c', hrun, hc', hr⟩ := hm
  cases r with
  | error e => exact ⟨.error e, c', hrun.bind_error, hc', hr⟩
  | ok a =>
    obtain ⟨hclear, t, ht, hP⟩ := hr
    exact onward hc' ht (hf a t c' hc' hclear hP) fun _ => hrun.bind_ok

theorem mono {R : α → State → Nat → Prop} (h : Parses d ts m s c P)
    (hR : ∀ a t i, P a t i → R a t i) : Parses d ts m s c R := by
  obtain ⟨r, c', hrun, hc', hr⟩ := h
  refine ⟨r, c', hrun, hc', ?_⟩
  cases r with
  | error e => exact hr
  | ok a =>
    obtain ⟨hclear, t, ht, hP⟩ := hr
    exact ⟨hclear, t, ht, hR a t _ hP⟩

-- Nothing follows what refuses its token.
theorem of_never (h : Parses d ts m s c fun _ _ _ => False) :
    Parses d ts (fun n => m n >>= fun a => f a n) s c Q :=
  h.bind fun _ _ _ _ _ h => h.elim

theorem peek {f : Kind → Nat → Descent β}
    (h : Parses d ts (f (current ts c.position).kind) s c Q) :
    Parses d ts (fun n => do f (← peek ts) n) s c Q :=
  h

theorem pass (hc : c.Orderly ts) (hclear : c.Clear)
    (h : c.mark.Orderly ts → Parses d ts m s c.mark P) :
    Parses d ts (fun n => do pass; m n) s c P :=
  have hmark := hc.mark hclear
  onward hmark .refl (h hmark.toOrderly) fun _ h => h.congr fun _ => rfl

theorem advance {k : Kind} (hc : c.Orderly ts) (hk : (current ts c.position).kind = k)
    (hnext : s.next? d k = some t)
    (h : (c.forward ts).Orderly ts → Parses d ts m t (c.forward ts) P) :
    Parses d ts (fun n => do advance ts; m n) s c P := by
  subst hk
  have hforward := hc.forward fun hk => by simp [hk, State.next?_eof] at hnext
  exact onward hforward (.single ⟨hnext, rfl⟩) (h hforward.toOrderly) fun _ hrun =>
    hrun.congr fun _ => rfl

theorem eat {f : Bool → Nat → Descent β} {k : Kind} (hc : c.Orderly ts)
    (hnext : s.next? d k = some t)
    (hyes : (current ts c.position).kind = k → (c.forward ts).Orderly ts →
      Parses d ts (f true) t (c.forward ts) Q)
    (hno : (current ts c.position).kind ≠ k → Parses d ts (f false) s c Q) :
    Parses d ts (fun n => do f (← eat ts k) n) s c Q := by
  by_cases hk : (current ts c.position).kind = k
  case pos =>
    exact congr (advance hc hk hnext (hyes hk)) fun _ => bind_of_ok (by rw [eat_eq, if_pos hk])
  case neg => exact congr (hno hk) fun _ => bind_of_ok (by rw [eat_eq, if_neg hk])

theorem expect {k : Kind} {e : Expected} (hc : c.Orderly ts) (hnext : s.next? d k = some t)
    (hyes : (current ts c.position).kind = k → (c.forward ts).Orderly ts →
      Parses d ts m t (c.forward ts) P)
    (hno : (current ts c.position).kind ≠ k → s.Misses d e (current ts c.position).kind) :
    Parses d ts (fun n => do expect ts k e; m n) s c P := by
  by_cases hk : (current ts c.position).kind = k
  case pos =>
    exact congr (advance hc hk hnext (hyes hk)) fun _ =>
      bind_of_ok (by rw [expect_eq, if_pos hk])
  case neg =>
    exact congr (refuse hc (hno hk)) fun _ => bind_of_error (by rw [expect_eq, if_neg hk]; rfl)

theorem take {pick? : Kind → Option α} {e : Expected} {t : α → State} (hc : c.Orderly ts)
    (hnext : ∀ k a, pick? k = some a → s.next? d k = some (t a))
    (hyes : ∀ a, pick? (current ts c.position).kind = some a → (c.forward ts).Orderly ts →
      Parses d ts (f a) (t a) (c.forward ts) Q)
    (hno : pick? (current ts c.position).kind = none →
      s.Misses d e (current ts c.position).kind) :
    Parses d ts (fun n => do f (← take ts pick? e) n) s c Q := by
  cases hk : pick? (current ts c.position).kind with
  | some a =>
    exact congr (advance hc rfl (hnext _ a hk) (hyes a hk)) fun _ =>
      bind_of_ok (by rw [take_eq, hk])
  | none => exact congr (refuse hc (hno hk)) fun _ => bind_of_error (by rw [take_eq, hk]; rfl)

end Parses

end Parser

end Imp
