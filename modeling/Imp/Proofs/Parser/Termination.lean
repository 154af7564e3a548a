import Imp.Proofs.Parser.Progress

/-!
The procedures of the parser come to an end, and read what the parser reads.
-/

namespace Imp

namespace Parser

open Token (Kind)
open Descent

variable {d : Dialect} {ts : List Token} {c c' : Cursor} {s t : State}

variable {frames : List Frame} {before : Program} {P : Expr → State → Nat → Prop}

theorem factor_refuses (hc : c.Orderly ts) {op : Operator}
    (hk : (current ts c.position).kind = .operator op) (p : Place) :
    Parses d ts (factor ts) ⟨frames, before, .operand p⟩ c P := by
  refine .call ?_
  simp only [factor]
  refine .peek ?_
  rw [hk]
  exact .refuse hc (hk ▸ State.misses_of_mode nofun rfl rfl)

theorem product_refuses (hc : c.Orderly ts) {op : Operator}
    (hk : (current ts c.position).kind = .operator op) (p : Place) :
    Parses d ts (product ts) ⟨frames, before, .operand p⟩ c P := by
  refine .call ?_
  simp only [product]
  exact .of_never (factor_refuses hc hk p)

theorem misses_closeParen {role : Role} {level level' : Pending} {outer : List Pending} {e : Expr}
    {k : Kind} (hop : ∀ op, k ≠ .operator op) (hk : k ≠ .closeParen) :
    State.Misses d ⟨frames, before, .operator ⟨role, level, level' :: outer⟩ e⟩ .closeParen k := by
  cases k with
  | operator op => exact absurd rfl (hop op)
  | closeParen => exact absurd rfl hk
  | _ => exact State.misses_of_mode nofun rfl rfl

theorem additive?_eq_some {k : Kind} {op : Operator} (h : additive? k = some op) :
    k = .operator op ∧ op ≠ .mul := by
  unfold additive? at h
  split at h <;> cases h <;> exact ⟨rfl, nofun⟩

theorem ne_operator_of_additive? {k : Kind} (h : additive? k = none) (hk : k ≠ .operator .mul)
    (op : Operator) : k ≠ .operator op := by
  rintro rfl
  cases op with
  | mul => exact hk rfl
  | add | sub => cases h

-- What a sum adds up to at its level of parentheses, up to a token that is no operator.
def Sums (ts : List Token) (frames : List Frame) (before : Program) (role : Role)
    (outer : List Pending) (e : Expr) (s : State) (i : Nat) : Prop :=
  (∃ level last, level.plus last = e ∧
    s = ⟨frames, before, .operator ⟨role, level, outer⟩ last⟩) ∧
  ∀ op, (current ts i).kind ≠ .operator op

mutual

theorem factor_parses (hts : Dialect.Exhaustible ts) {c : Cursor} (hc : c.Orderly ts)
    (hclear : c.Clear) (p : Place) :
    Parses d ts (factor ts) ⟨frames, before, .operand p⟩ c
      fun e t _ => t = ⟨frames, before, p.after e⟩ := by
  refine .call ?_
  simp only [factor]
  refine .peek ?_
  generalize hk : (current ts c.position).kind = k
  cases k with
  | number v => exact .advance hc hk rfl fun hforward => .pure hforward (hclear.forward ts) rfl
  | ident x => exact .advance hc hk rfl fun hforward => .pure hforward (hclear.forward ts) rfl
  | openParen =>
    have hposition : c.mark.position = c.position := rfl
    exact .pass hc hclear fun hmark => parenthesized_parses hts hmark hk p
  | _ => exact .refuse hc (hk ▸ State.misses_of_mode nofun rfl rfl)
termination_by 5 * (bound ts - c.position) + 1

theorem parenthesized_parses (hts : Dialect.Exhaustible ts) {c : Cursor} (hc : c.Orderly ts)
    (hk : (current ts c.position).kind = .openParen) (p : Place) :
    Parses d ts (parenthesized ts) ⟨frames, before, .operand p⟩ c
      fun e t _ => t = ⟨frames, before, p.after e⟩ := by
  refine .call ?_
  simp only [parenthesized]
  refine .advance hc hk rfl fun hforward => ?_
  obtain ⟨hlt, hclear⟩ | ⟨-, hagain⟩ := hc.forward_cases hk nofun
  case inr => exact absurd hagain (ne_openParen_at_bound hts)
  case inl =>
    have hle := hforward.position_le
    refine (sum_parses hts hforward hclear p.role (p.level :: p.outer)).bind ?_
    rintro e t c' hc' hclear' ⟨⟨level, last, hlast, rfl⟩, hop⟩
    have hnext : State.next? d ⟨frames, before, .operator ⟨p.role, level, p.level :: p.outer⟩
        last⟩ .closeParen = some ⟨frames, before, p.after e⟩ := hlast ▸ rfl
    refine .expect hc'.toOrderly hnext (fun _ hforward => ?_) (misses_closeParen hop)
    exact .pure hforward (hclear'.forward ts) rfl
termination_by 5 * (bound ts - c.position)

theorem product_parses (hts : Dialect.Exhaustible ts) {c : Cursor} (hc : c.Orderly ts)
    (hclear : c.Clear) {p : Place} (hp : p.level.product = none) :
    Parses d ts (product ts) ⟨frames, before, .operand p⟩ c
      fun e t i => t = ⟨frames, before, .operator p e⟩ ∧ (current ts i).kind ≠ .operator .mul := by
  refine .call ?_
  simp only [product]
  refine (factor_parses hts hc hclear p).bind fun e t c' hc' hclear' ht => ?_
  have := hc'.le_position
  rw [after_of_product hp] at ht
  subst ht
  exact products_parses hts hc'.toOrderly hclear' hp e
termination_by 5 * (bound ts - c.position) + 2

theorem products_parses (hts : Dialect.Exhaustible ts) {c : Cursor} (hc : c.Orderly ts)
    (hclear : c.Clear) {p : Place} (hp : p.level.product = none) (l : Expr) :
    Parses d ts (products ts · l) ⟨frames, before, .operator p l⟩ c
      fun e t i => t = ⟨frames, before, .operator p e⟩ ∧ (current ts i).kind ≠ .operator .mul := by
  refine .call ?_
  simp only [products]
  refine .peek ?_
  split
  case h_1 hk =>
    have hposition : c.mark.position = c.position := rfl
    refine .pass hc hclear fun hmark => (nextFactor_parses hts hmark hk hp l).bind ?_
    rintro e t c' hc' hclear' rfl
    have hlt := hc'.lt_of_mark hclear'
    have := hc'.position_le
    exact products_parses hts hc'.toOrderly hclear' hp _
  case h_2 hk => exact .pure hc hclear ⟨rfl, hk⟩
termination_by 5 * (bound ts - c.position) + 1

theorem nextFactor_parses (hts : Dialect.Exhaustible ts) {c : Cursor} (hc : c.Orderly ts)
    (hk : (current ts c.position).kind = .operator .mul) {p : Place}
    (hp : p.level.product = none) (l : Expr) :
    Parses d ts (nextFactor ts) ⟨frames, before, .operator p l⟩ c
      fun e t _ => t = ⟨frames, before, .operator p (.bin .mul l e)⟩ := by
  refine .call ?_
  simp only [nextFactor]
  refine .advance hc hk rfl fun hforward => ?_
  obtain ⟨hlt, hclear⟩ | ⟨heq, hagain⟩ := hc.forward_cases hk nofun
  case inr => exact factor_refuses hforward (heq ▸ hagain) _
  case inl =>
    have hle := hforward.position_le
    have hafter : ∀ e, Place.after { p with level := { p.level with product := some l } } e =
        .operator p (.bin .mul l e) := by
      simp [Place.after, Pending.times, ← hp]
    refine (factor_parses hts hforward hclear _).mono fun e t i ht => ?_
    rw [ht, hafter]
termination_by 5 * (bound ts - c.position)

theorem sum_parses (hts : Dialect.Exhaustible ts) {c : Cursor} (hc : c.Orderly ts)
    (hclear : c.Clear) (role : Role) (outer : List Pending) :
    Parses d ts (sum ts) ⟨frames, before, .operand ⟨role, .empty, outer⟩⟩ c
      (Sums ts frames before role outer) := by
  refine .call ?_
  simp only [sum]
  refine (product_parses hts hc hclear rfl).bind ?_
  rintro e t c' hc' hclear' ⟨rfl, hk⟩
  have := hc'.le_position
  exact sums_parses hts hc'.toOrderly hclear' hk rfl
termination_by 5 * (bound ts - c.position) + 3

theorem sums_parses (hts : Dialect.Exhaustible ts) {c : Cursor} (hc : c.Orderly ts)
    (hclear : c.Clear) (hk : (current ts c.position).kind ≠ .operator .mul) {role : Role}
    {outer : List Pending} {level : Pending} {last l : Expr} (hl : level.plus last = l) :
    Parses d ts (sums ts · l) ⟨frames, before, .operator ⟨role, level, outer⟩ last⟩ c
      (Sums ts frames before role outer) := by
  refine .call ?_
  simp only [sums]
  refine .peek ?_
  split
  case h_1 op hop =>
    have hposition : c.mark.position = c.position := rfl
    refine .pass hc hclear fun hmark => (nextProduct_parses hts hmark hop hl).bind ?_
    rintro e t c' hc' hclear' ⟨rfl, hk⟩
    have hlt := hc'.lt_of_mark hclear'
    have := hc'.position_le
    exact sums_parses hts hc'.toOrderly hclear' hk rfl
  case h_2 hop =>
    exact .pure hc hclear ⟨⟨level, last, hl, rfl⟩, ne_operator_of_additive? hop hk⟩
termination_by 5 * (bound ts - c.position) + 1

theorem nextProduct_parses (hts : Dialect.Exhaustible ts) {c : Cursor} (hc : c.Orderly ts)
    {op : Operator} (hop : additive? (current ts c.position).kind = some op) {role : Role}
    {outer : List Pending} {level : Pending} {last l : Expr} (hl : level.plus last = l) :
    Parses d ts (nextProduct ts) ⟨frames, before, .operator ⟨role, level, outer⟩ last⟩ c
      fun e t i => t = ⟨frames, before, .operator ⟨role, ⟨some (l, op), none⟩, outer⟩ e⟩ ∧
        (current ts i).kind ≠ .operator .mul := by
  refine .call ?_
  simp only [nextProduct]
  have ⟨hk, hop⟩ := additive?_eq_some hop
  have hnext : State.next? d ⟨frames, before, .operator ⟨role, level, outer⟩ last⟩
      (.operator op) = some ⟨frames, before, .operand ⟨role, ⟨some (l, op), none⟩, outer⟩⟩ := by
    cases op with
    | mul => exact absurd rfl hop
    | add | sub => exact hl ▸ rfl
  refine .advance hc hk hnext fun hforward => ?_
  obtain ⟨hlt, hclear⟩ | ⟨heq, hagain⟩ := hc.forward_cases hk nofun
  case inr => exact product_refuses hforward (heq ▸ hagain) _
  case inl =>
    have hle := hforward.position_le
    exact product_parses hts hforward hclear rfl
termination_by 5 * (bound ts - c.position)

end

theorem misses_follower (role : Role) {level : Pending} {e : Expr} {k : Kind}
    (hop : ∀ op, k ≠ .operator op) (hk : ∀ s e, State.atEnd? s e role k = none) :
    State.Misses d ⟨frames, before, .operator ⟨role, level, []⟩ e⟩ role.follower k := by
  refine State.misses_of_mode nofun ?_ rfl
  cases k with
  | operator op => exact absurd rfl (hop op)
  | _ => exact hk _ _

theorem eq_ident {k : Kind} {x : String} (h : ident? k = some x) : k = .ident x := by
  cases k with
  | ident => exact congrArg Kind.ident (Option.some.inj h)
  | _ => cases h

theorem eq_relation {k : Kind} {rel : Relation} (h : relation? k = some rel) :
    k = .relation rel := by
  cases k with
  | relation => exact congrArg Kind.relation (Option.some.inj h)
  | _ => cases h

theorem misses_declaredName {k : Kind} (hk : ident? k = none) :
    State.Misses d ⟨frames, before, .declaredName⟩ .identifier k := by
  cases k with
  | ident x => cases hk
  | _ => exact State.misses_of_mode nofun rfl rfl

theorem misses_equals {role : Role} {k : Kind} (hk : k ≠ .assign) :
    State.Misses d ⟨frames, before, .equals role⟩ (.equals role) k := by
  cases k with
  | assign => exact absurd rfl hk
  | _ => exact State.misses_of_mode nofun rfl rfl

theorem misses_openParen {g : Guard} {k : Kind} (hk : k ≠ .openParen) :
    State.Misses d ⟨frames, before, .openParen g⟩ (.openParen g) k := by
  cases k with
  | openParen => exact absurd rfl hk
  | _ => exact State.misses_of_mode nofun rfl rfl

theorem misses_openBrace {o : Opening} {k : Kind} (hk : k ≠ .openBrace) :
    State.Misses d ⟨frames, before, .openBrace o⟩ (.openBrace o) k := by
  cases k with
  | openBrace => exact absurd rfl hk
  | _ => exact State.misses_of_mode nofun rfl rfl

-- A role in which an expression is the last part of a statement.
inductive Role.Finishes : Role → (Expr → Stmt) → Prop
  | declared (x : String) : Finishes (.declared x) (.declare x)
  | assigned (x : String) : Finishes (.assigned x) (.assign x)

theorem Role.Finishes.follower_eq {role : Role} {stmt : Expr → Stmt} (h : role.Finishes stmt) :
    role.follower = .semicolon role := by
  cases h <;> rfl

theorem Role.Finishes.atEnd?_eq {role : Role} {stmt : Expr → Stmt} (h : role.Finishes stmt)
    (s : State) (e : Expr) : s.atEnd? e role .semicolon = some (s.add (stmt e)) := by
  cases h <;> rfl

theorem Role.Finishes.atEnd?_eq_none {role : Role} {stmt : Expr → Stmt} (h : role.Finishes stmt)
    (s : State) (e : Expr) {k : Kind} (hk : k ≠ .semicolon) : s.atEnd? e role k = none := by
  cases k with
  | semicolon => exact absurd rfl hk
  | _ => cases h <;> rfl

theorem value_parses (hts : Dialect.Exhaustible ts) (hc : c.Orderly ts)
    (hclear : (current ts c.position).kind = .assign → c.Clear) {role : Role} {stmt : Expr → Stmt}
    (hrole : role.Finishes stmt) :
    Parses d ts (value ts role) ⟨frames, before, .equals role⟩ c
      fun e t _ => t = ⟨frames, stmt e :: before, .statement⟩ := by
  unfold value
  refine .expect hc rfl (fun hk hforward => ?_) misses_equals
  refine (sum_parses hts hforward ((hclear hk).forward ts) role []).bind ?_
  rintro e t c' hc' hclear' ⟨⟨level, last, hlast, rfl⟩, hop⟩
  have hnext : State.next? d ⟨frames, before, .operator ⟨role, level, []⟩ last⟩ .semicolon =
      some ⟨frames, stmt e :: before, .statement⟩ := hlast ▸ hrole.atEnd?_eq _ _
  refine .expect hc'.toOrderly hnext (fun _ hforward => ?_) fun hk => ?_
  case refine_1 => exact .pure hforward (hclear'.forward ts) rfl
  case refine_2 =>
    exact hrole.follower_eq ▸ misses_follower role hop fun s e => hrole.atEnd?_eq_none s e hk

theorem misses_relation {g : Guard} {level : Pending} {e : Expr} {k : Kind}
    (hop : ∀ op, k ≠ .operator op) (hk : relation? k = none) :
    State.Misses d ⟨frames, before, .operator ⟨.left g, level, []⟩ e⟩ .relation k := by
  refine misses_follower (.left g) hop fun _ _ => ?_
  cases k with
  | relation => cases hk
  | _ => rfl

theorem misses_conditionEnd {g : Guard} {l : Expr} {rel : Relation} {level : Pending} {e : Expr}
    {k : Kind} (hop : ∀ op, k ≠ .operator op) (hk : k ≠ .closeParen) :
    State.Misses d ⟨frames, before, .operator ⟨.right g l rel, level, []⟩ e⟩ .conditionEnd k := by
  refine misses_follower (.right g l rel) hop fun _ _ => ?_
  cases k with
  | closeParen => exact absurd rfl hk
  | _ => rfl

theorem condition_refuses {g : Guard} {P : Cond → State → Nat → Prop} (hc : c.Orderly ts)
    (hk : (current ts c.position).kind ≠ .openParen) :
    Parses d ts (condition ts g) ⟨frames, before, .openParen g⟩ c P :=
  .expect hc rfl (fun h => absurd h hk) misses_openParen

theorem condition_parses (hts : Dialect.Exhaustible ts) (hc : c.Orderly ts) (hclear : c.Clear)
    (g : Guard) :
    Parses d ts (condition ts g) ⟨frames, before, .openParen g⟩ c
      fun test t _ => t = ⟨frames, before, .openBrace (g.opening test)⟩ := by
  unfold condition
  refine .expect hc rfl (fun _ hforward => ?_) misses_openParen
  refine (sum_parses hts hforward (hclear.forward ts) (.left g) []).bind ?_
  rintro l t c' hc' hclear' ⟨⟨level, last, hlast, rfl⟩, hop⟩
  have hnext : ∀ k rel, relation? k = some rel →
      State.next? d ⟨frames, before, .operator ⟨.left g, level, []⟩ last⟩ k =
        some ⟨frames, before, .operand (Role.right g l rel).place⟩ :=
    fun _ _ hk => eq_relation hk ▸ hlast ▸ rfl
  refine .take hc'.toOrderly hnext (fun rel _ hforward => ?_) (misses_relation hop)
  refine (sum_parses hts hforward (hclear'.forward ts) (.right g l rel) []).bind ?_
  rintro r t c'' hc'' hclear'' ⟨⟨level, last, hlast, rfl⟩, hop⟩
  have hnext : State.next? d ⟨frames, before, .operator ⟨.right g l rel, level, []⟩ last⟩
      .closeParen = some ⟨frames, before, .openBrace (g.opening ⟨rel, l, r⟩)⟩ := hlast ▸ rfl
  refine .expect hc''.toOrderly hnext (fun _ hforward => ?_) (misses_conditionEnd hop)
  exact .pure hforward (hclear''.forward ts) rfl

-- A statement can stand where the machine is, among others of a block.
structure Ready (ts : List Token) (frames : List Frame) (before : Program) (s : State) (i : Nat) :
    Prop where
  settled : s.settled = ⟨frames, before, .statement⟩
  mode : (current ts i).kind = .elseWord → s.mode = .statement

theorem Ready.next?_eq {k : Kind} {i : Nat} (hs : Ready ts frames before s i)
    (hk : k ≠ .elseWord) : s.next? d k = State.atStatement? d ⟨frames, before, .statement⟩ k :=
  next?_of_settled hs.settled rfl hk

theorem expected_of_settled (hs : s.settled = ⟨frames, before, .statement⟩) (k : Kind) :
    s.expected k = State.expected ⟨frames, before, .statement⟩ k := by
  obtain ⟨frames', before', mode⟩ := s
  cases mode with
  | statement | elseWord =>
    cases hs
    rfl
  | _ => cases hs

theorem misses_statement {k : Kind} {i : Nat} (hs : Ready ts frames before s i)
    (hi : (current ts i).kind = k)
    (hk : State.atStatement? d ⟨frames, before, .statement⟩ k = none) (heof : k ≠ .eof)
    (hclose : k ≠ .closeBrace) : s.Misses d .statement k where
  next?_eq := by
    by_cases helse : k = .elseWord
    case pos =>
      have hmode := hs.mode (hi.trans helse)
      have hsettled := hs.settled
      obtain ⟨frames', before', mode⟩ := s
      obtain rfl : mode = .statement := hmode
      cases hsettled
      exact hk
    case neg => exact (hs.next?_eq helse).trans hk
  expected_eq := by
    rw [expected_of_settled hs.settled]
    cases frames with
    | nil =>
      cases k with
      | closeBrace => exact absurd rfl hclose
      | _ => rfl
    | cons f frames =>
      cases k with
      | eof => exact absurd rfl heof
      | _ => rfl
  program?_eq h := absurd h heof

theorem misses_closeBrace {f : Frame} (hs : s.settled = ⟨f :: frames, before, .statement⟩) :
    s.Misses d (.closeBrace f.opening) .eof where
  next?_eq := State.next?_eof d s
  expected_eq := expected_of_settled hs .eof
  program?_eq _ := by simp [State.program?, hs]

theorem declaration_parses (hts : Dialect.Exhaustible ts) (hc : c.Orderly ts)
    (hclear : ∀ x, (current ts c.position).kind = .ident x → c.Clear) :
    Parses d ts (declaration ts) ⟨frames, before, .declaredName⟩ c
      fun stmt => Ready ts frames (stmt :: before) := by
  have hnext : ∀ k x, ident? k = some x → State.next? d ⟨frames, before, .declaredName⟩ k =
      some ⟨frames, before, .equals (.declared x)⟩ := fun _ _ hx => eq_ident hx ▸ rfl
  refine .take hc hnext (fun x hx hforward => ?_) misses_declaredName
  have hclear := (hclear x (eq_ident hx)).forward ts
  refine (value_parses hts hforward (fun _ => hclear) (.declared x)).bind ?_
  rintro e t c' hc' hclear' rfl
  exact .pure hc'.toOrderly hclear' ⟨rfl, fun _ => rfl⟩

theorem assignment_parses (hts : Dialect.Exhaustible ts) (hc : c.Orderly ts)
    (hs : Ready ts frames before s c.position) {y : String}
    (hk : (current ts c.position).kind = .ident y) :
    Parses d ts (assignment ts) s c fun stmt => Ready ts frames (stmt :: before) := by
  have hnext : ∀ k x, ident? k = some x →
      s.next? d k = some ⟨frames, before, .equals (.assigned x)⟩ :=
    fun _ _ hx => eq_ident hx ▸ hs.next?_eq nofun
  refine .take hc hnext (fun x _ hforward => ?_) fun hnone => by simp [hk, ident?] at hnone
  have hclear : (current ts (c.forward ts).position).kind = .assign → (c.forward ts).Clear :=
    fun h => hc.clear_forward hk nofun (by simp [h])
  refine (value_parses hts hforward hclear (.assigned x)).bind ?_
  rintro e t c' hc' hclear' rfl
  exact .pure hc'.toOrderly hclear' ⟨rfl, fun _ => rfl⟩

theorem loop_refuses {P : Stmt → State → Nat → Prop} (hc : c.Orderly ts)
    (hk : (current ts c.position).kind ≠ .openParen) :
    Parses d ts (loop d ts) ⟨frames, before, .openParen .loop⟩ c P := by
  refine .call ?_
  simp only [loop]
  exact .of_never (condition_refuses hc hk)

theorem branch_refuses {P : Stmt → State → Nat → Prop} (hc : c.Orderly ts)
    (hk : (current ts c.position).kind ≠ .openParen) :
    Parses d ts (branch d ts) ⟨frames, before, .openParen .branch⟩ c P := by
  refine .call ?_
  simp only [branch]
  exact .of_never (condition_refuses hc hk)

mutual

theorem block_parses (hts : Dialect.Exhaustible ts) {frames : List Frame} {before : Program}
    {c : Cursor} (hc : c.Orderly ts) (hclear : c.Clear) (o : Opening) :
    Parses d ts (block d ts · o) ⟨frames, before, .openBrace o⟩ c
      fun p t _ => State.close? ⟨⟨o, before⟩ :: frames, p.reverse, .statement⟩ = some t := by
  refine .call ?_
  simp only [block]
  refine .expect hc rfl (fun _ hforward => ?_) misses_openBrace
  have hle : c.position ≤ (c.forward ts).position := le_next ts c.position
  refine (statements_parses hts hforward (hclear.forward ts) ⟨rfl, fun _ => rfl⟩).bind ?_
  rintro p t c' hc' hclear' ⟨ht, hend⟩
  obtain ⟨u, -, hclose, -⟩ := State.Completable.exists_close? ⟨o, before⟩ frames p.reverse
  have hnext : t.next? d .closeBrace = some u := by
    rw [ht.next?_eq (by simp), List.append_nil]
    exact hclose
  refine .expect hc'.toOrderly hnext (fun _ hforward => ?_) fun hk => ?_
  case refine_1 => exact .pure hforward (hclear'.forward ts) hclose
  case refine_2 =>
    rw [hend.resolve_right hk]
    exact misses_closeBrace ht.settled
termination_by 4 * (bound ts - c.position) + 2

theorem loop_parses (hts : Dialect.Exhaustible ts) {frames : List Frame} {before : Program}
    {c : Cursor} (hc : c.Orderly ts) (hclear : c.Clear) :
    Parses d ts (loop d ts) ⟨frames, before, .openParen .loop⟩ c
      fun stmt => Ready ts frames (stmt :: before) := by
  refine .call ?_
  simp only [loop]
  refine (condition_parses hts hc hclear .loop).bind ?_
  rintro test t c' hc' hclear' rfl
  have := hc'.le_position
  refine (block_parses hts hc'.toOrderly hclear' (.loop test)).bind ?_
  intro b t c'' hc'' hclear'' ht
  cases ht
  exact .pure hc''.toOrderly hclear'' ⟨by simp [State.settled], fun _ => rfl⟩
termination_by 4 * (bound ts - c.position) + 3

theorem branch_parses (hts : Dialect.Exhaustible ts) {frames : List Frame} {before : Program}
    {c : Cursor} (hc : c.Orderly ts) (hclear : c.Clear) :
    Parses d ts (branch d ts) ⟨frames, before, .openParen .branch⟩ c
      fun stmt => Ready ts frames (stmt :: before) := by
  refine .call ?_
  simp only [branch]
  refine (condition_parses hts hc hclear .branch).bind ?_
  rintro test t c₁ hc₁ hclear₁ rfl
  have := hc₁.le_position
  refine (block_parses hts hc₁.toOrderly hclear₁ (.consequent test)).bind ?_
  intro t u c₂ hc₂ hclear₂ hu
  rw [State.close?, List.reverse_reverse] at hu
  cases hu
  have := hc₂.le_position
  refine .eat hc₂.toOrderly rfl (fun _ hforward => ?_) fun helse => ?_
  case refine_1 =>
    have hle : c₂.position ≤ (c₂.forward ts).position := le_next ts c₂.position
    refine (block_parses hts hforward (hclear₂.forward ts) (.alternate test t)).bind ?_
    intro f u c₃ hc₃ hclear₃ hu
    rw [State.close?, List.reverse_reverse] at hu
    cases hu
    exact .pure hc₃.toOrderly hclear₃ ⟨rfl, fun _ => rfl⟩
  case refine_2 => exact .pure hc₂.toOrderly hclear₂ ⟨rfl, fun h => absurd h helse⟩
termination_by 4 * (bound ts - c.position) + 3

theorem statement_parses (hts : Dialect.Exhaustible ts) {frames : List Frame} {before : Program}
    {s : State} {c : Cursor} (hc : c.Orderly ts) (hs : Ready ts frames before s c.position)
    (heof : (current ts c.position).kind ≠ .eof)
    (hclose : (current ts c.position).kind ≠ .closeBrace) :
    Parses d ts (statement d ts) s c fun stmt => Ready ts frames (stmt :: before) := by
  refine .call ?_
  simp only [statement]
  refine .peek ?_
  generalize hk : (current ts c.position).kind = k at heof hclose
  cases k with
  | varWord =>
    refine .advance hc hk (hs.next?_eq nofun) fun hforward => ?_
    exact declaration_parses hts hforward fun x hx => hc.clear_forward hk heof (by simp [hx])
  | ident x => exact assignment_parses hts hc hs hk
  | whileWord =>
    refine .advance hc hk (hs.next?_eq nofun) fun hforward => ?_
    obtain ⟨hlt, hclear⟩ | ⟨heq, hagain⟩ := hc.forward_cases hk heof
    case inr => exact loop_refuses hforward (by rw [heq, hagain]; nofun)
    case inl =>
      have := hforward.position_le
      exact loop_parses hts hforward hclear
  | ifWord =>
    by_cases has : d.hasConditionals
    case neg =>
      simp only [if_neg has]
      exact .refuse hc (hk ▸ misses_statement hs hk (if_neg has) heof hclose)
    case pos =>
      simp only [if_pos has]
      have hnext : s.next? d .ifWord = some ⟨frames, before, .openParen .branch⟩ :=
        (hs.next?_eq (k := .ifWord) nofun).trans (if_pos has)
      refine .advance hc hk hnext fun hforward => ?_
      obtain ⟨hlt, hclear⟩ | ⟨heq, hagain⟩ := hc.forward_cases hk heof
      case inr => exact branch_refuses hforward (by rw [heq, hagain]; nofun)
      case inl =>
        have := hforward.position_le
        exact branch_parses hts hforward hclear
  | closeBrace => exact absurd rfl hclose
  | eof => exact absurd rfl heof
  | _ => exact .refuse hc (hk ▸ misses_statement hs hk rfl heof hclose)
termination_by 4 * (bound ts - c.position)

theorem statements_parses (hts : Dialect.Exhaustible ts) {frames : List Frame} {before : Program}
    {s : State} {c : Cursor} (hc : c.Orderly ts) (hclear : c.Clear)
    (hs : Ready ts frames before s c.position) :
    Parses d ts (statements d ts) s c fun p t i => Ready ts frames (p.reverse ++ before) t i ∧
      ((current ts i).kind = .eof ∨ (current ts i).kind = .closeBrace) := by
  refine .call ?_
  simp only [statements]
  refine .peek ?_
  split
  case h_1 h => exact .pure hc hclear ⟨hs, .inl h⟩
  case h_2 h => exact .pure hc hclear ⟨hs, .inr h⟩
  case h_3 heof hclose =>
    refine .pass hc hclear fun hmark => ?_
    have hposition : c.mark.position = c.position := rfl
    refine (statement_parses hts hmark hs heof hclose).bind fun stmt t c' hc' hclear' ht => ?_
    have hlt := hc'.lt_of_mark hclear'
    have := hc'.position_le
    refine (statements_parses hts hc'.toOrderly hclear' ht).bind fun p u c'' hc'' hclear'' hu => ?_
    exact .pure hc''.toOrderly hclear'' (by simpa using hu)
termination_by 4 * (bound ts - c.position) + 1

end

theorem program_parses (hts : Dialect.Exhaustible ts) {c : Cursor} (hc : c.Orderly ts)
    (hclear : c.Clear) :
    Parses d ts (program d ts) .start c fun p t i =>
      (current ts i).kind = .eof ∧ t.program? = some p := by
  refine (statements_parses hts hc hclear ⟨rfl, fun _ => rfl⟩).bind ?_
  rintro p t c' hc' hclear' ⟨ht, hend⟩
  refine .peek ?_
  split
  case isTrue heof =>
    exact .pure hc'.toOrderly hclear' ⟨heof, by simp [State.program?, ht.settled]⟩
  case isFalse heof =>
    have hclose := hend.resolve_left heof
    refine .refuse hc'.toOrderly ?_
    rw [hclose]
    exact ⟨ht.next?_eq (by simp), expected_of_settled ht.settled .closeBrace, by simp⟩

-- A procedure comes back with a result. The place has not gone back, nor past the bound, and each
-- pass has begun behind the passes before it. If it succeeds, tokens have been read in all of them.
def Returns (ts : List Token) (m : Nat → Descent α) (c : Cursor) (r : Except ParseError α) :
    Prop :=
  ∃ c', Gives m c (r, c') ∧ c'.Follows ts c ∧ ((∃ a, r = .ok a) → c'.Clear)

def Ends (ts : List Token) (m : Nat → Descent α) (c : Cursor) : Prop :=
  ∃ r, Returns ts m c r

-- A pass comes to an end, and reads a token or fails.
def Progresses (ts : List Token) (m : Nat → Descent α) (c : Cursor) : Prop :=
  ∃ r c', Gives m c.mark (r, c') ∧ c'.Follows ts c ∧ ((∃ a, r = .ok a) → c.position < c'.position)

theorem Parses.ends {m : Nat → Descent α} {P : α → State → Nat → Prop} (h : Parses d ts m s c P) :
    Ends ts m c := by
  obtain ⟨r, c', hrun, hc', hr⟩ := h
  refine ⟨r, c', hrun, hc', ?_⟩
  rintro ⟨a, rfl⟩
  exact hr.1

theorem Ends.progresses {m : Nat → Descent α} (hc : c.Orderly ts) (hclear : c.Clear)
    (h : Ends ts m c.mark) : Progresses ts m c := by
  obtain ⟨r, c', hrun, hc', hr⟩ := h
  exact ⟨r, c', hrun, hc'.trans (hc.mark hclear), fun hok => hc'.lt_of_mark (hr hok)⟩

theorem ready_start (ts : List Token) (i : Nat) : Ready ts [] [] .start i where
  settled := rfl
  mode _ := rfl

theorem statement_ends (hts : Dialect.Exhaustible ts) (hc : c.Orderly ts) :
    Ends ts (statement d ts) c := by
  by_cases hk : (current ts c.position).kind = .eof ∨ (current ts c.position).kind = .closeBrace
  case pos =>
    -- Only a list of statements may stop here.
    have hpeek : peek ts c = some (.ok (current ts c.position).kind, c) := rfl
    have hrun : ∀ n, statement d ts (n + 1) c = refuse ts .statement c := by
      intro n
      rw [statement, bind_of_ok hpeek]
      cases hk with
      | inl heof => rw [heof]
      | inr hclose => rw [hclose]
    exact ⟨.error _, c, Gives.call ⟨0, fun n _ => hrun n⟩, hc.follows, nofun⟩
  case neg =>
    have ⟨heof, hclose⟩ := not_or.mp hk
    exact (statement_parses hts hc (ready_start ts c.position) heof hclose).ends

-- All procedures come to an end from here, and so do all passes.
structure Terminates (d : Dialect) (ts : List Token) (c : Cursor) : Prop where
  statements : Ends ts (Descent.statements d ts) c
  block : ∀ o, Ends ts (Descent.block d ts · o) c
  condition : ∀ g, Ends ts (Descent.condition ts g) c
  declaration : Ends ts (Descent.declaration ts) c
  assignment : ∀ x, (current ts c.position).kind = .ident x → Ends ts (Descent.assignment ts) c
  loop : Ends ts (Descent.loop d ts) c
  branch : Ends ts (Descent.branch d ts) c
  sum : Ends ts (Descent.sum ts) c
  product : Ends ts (Descent.product ts) c
  factor : Ends ts (Descent.factor ts) c
  statement : Progresses ts (Descent.statement d ts) c
  parenthesized : (current ts c.position).kind = .openParen →
    Progresses ts (Descent.parenthesized ts) c
  nextFactor : (current ts c.position).kind = .operator .mul →
    Progresses ts (Descent.nextFactor ts) c
  nextProduct : ∀ op, additive? (current ts c.position).kind = some op →
    Progresses ts (Descent.nextProduct ts) c

-- The machine may be in any state in which the tokens of a procedure can come next.
theorem terminates (d : Dialect) (hts : Dialect.Exhaustible ts) (hc : c.Orderly ts)
    (hclear : c.Clear) : Terminates d ts c :=
  have hmark : c.mark.Orderly ts := (hc.mark hclear).toOrderly
  let r : Role := .declared ""
  let operand : State := ⟨[], [], .operand r.place⟩
  let operator : State := ⟨[], [], .operator r.place (.num 0)⟩
  { statements := (statements_parses (d := d) hts hc hclear (ready_start ts c.position)).ends
    block o := Parses.ends (d := d) (s := ⟨[], [], .openBrace o⟩) (block_parses hts hc hclear o)
    condition g :=
      Parses.ends (d := d) (s := ⟨[], [], .openParen g⟩) (condition_parses hts hc hclear g)
    declaration := Parses.ends (d := d) (s := ⟨[], [], .declaredName⟩)
      (declaration_parses hts hc fun _ _ => hclear)
    assignment _ hk := Parses.ends (d := d)
      (assignment_parses hts hc (ready_start ts c.position) hk)
    loop := Parses.ends (d := d) (s := ⟨[], [], .openParen .loop⟩) (loop_parses hts hc hclear)
    branch := Parses.ends (d := d) (s := ⟨[], [], .openParen .branch⟩) (branch_parses hts hc hclear)
    sum := Parses.ends (d := d) (s := operand) (sum_parses hts hc hclear r [])
    product := Parses.ends (d := d) (s := operand) (product_parses hts hc hclear rfl)
    factor := Parses.ends (d := d) (s := operand) (factor_parses hts hc hclear r.place)
    statement := (statement_ends hts hmark).progresses hc hclear
    parenthesized hk := (Parses.ends (d := d) (s := operand)
      (parenthesized_parses hts hmark hk r.place)).progresses hc hclear
    nextFactor hk := (Parses.ends (d := d) (s := operator)
      (nextFactor_parses hts hmark hk rfl (.num 0))).progresses hc hclear
    nextProduct _ hop := (Parses.ends (d := d) (s := operator)
      (nextProduct_parses hts hmark hop rfl)).progresses hc hclear }

-- Behind an opening parenthesis at the end of all tokens, calls go too deep at every depth.
theorem goes_too_deep (hk : (current ts ts.length).kind = .openParen) (n : Nat)
    (hc : c.position = ts.length) :
    factor ts n c = none ∧ parenthesized ts n c = none ∧ product ts n c = none ∧
      sum ts n c = none := by
  induction n generalizing c with
  | zero => exact ⟨rfl, rfl, rfl, rfl⟩
  | succ n ih =>
    have hforward : (c.forward ts).position = ts.length := by simp [Cursor.forward, next, hc]
    have hpeek : peek ts c = some (.ok .openParen, c) := by rw [← hk, ← hc]; rfl
    have hadvance : advance ts c = some (.ok (), c.forward ts) := rfl
    have hpass : pass c = some (.ok (), c.mark) := rfl
    refine ⟨?_, ?_, ?_, ?_⟩
    case refine_1 =>
      rw [factor, bind_of_ok hpeek]
      simp only [operand?, if_true]
      rw [bind_of_ok hpass]
      exact (ih (c := c.mark) hc).2.1
    case refine_2 =>
      rw [parenthesized, bind_of_ok hadvance]
      exact bind_of_none (ih hforward).2.2.2
    case refine_3 =>
      rw [product]
      exact bind_of_none (ih hc).1
    case refine_4 =>
      rw [sum]
      exact bind_of_none (ih hc).2.2.1

end Parser

namespace Dialect

open Imp.Parser

theorem descent_returns (d : Dialect) {ts : List Token} (hts : Exhaustible ts) :
    Returns ts (Descent.program d ts) ⟨0, []⟩ (d.parseTokens ts) := by
  obtain ⟨r, c, hrun, hc, hr⟩ := program_parses (d := d) hts (c := ⟨0, []⟩)
    ⟨Nat.zero_le _, .nil, nofun⟩ nofun
  cases r with
  | error e =>
    obtain ⟨t, ht, hrefuses⟩ := hr
    rw [parseTokens_of_refuses hts ht hrefuses]
    exact ⟨c, hrun, hc, nofun⟩
  | ok p =>
    obtain ⟨hclear, t, ht, heof, hp⟩ := hr
    rw [parseTokens_of_eof ht heof hp]
    exact ⟨c, hrun, hc, fun _ => hclear⟩

theorem exists_parseTokens_eq_error (d : Dialect) {ts : List Token} (hne : ts ≠ [])
    (heof : ∀ t ∈ ts, t.kind ≠ .eof) : ∃ e, d.parseTokens ts = .error e := by
  have hnone : ts.find? (·.kind = .eof) = none := by simpa using heof
  have hlast := List.getLast?_eq_some_getLast hne
  simp only [parseTokens, hnone, hlast]
  cases State.start.feed d (ts ++ List.replicate (ts.length + 1) (ts.getLast hne)) with
  | error e => exact ⟨e, rfl⟩
  | ok s => exact ⟨_, rfl⟩

-- Read by procedures, a program is what `parseTokens` says it is. From wherever they are called,
-- they come to an end, and every pass reads a token or fails. The place is never past the first end
-- of input, nor past the end of the tokens. Tokens without an end of input are always refused.
theorem parseTokens_terminates (d : Dialect) {ts : List Token}
    (hts : (∃ t ∈ ts, t.kind = .eof) ∨ ∀ t ∈ ts.getLast?, t.kind ≠ .openParen) :
    Returns ts (Descent.program d ts) ⟨0, []⟩ (d.parseTokens ts) ∧
      (∀ c : Cursor, c.Orderly ts → c.Clear → Terminates d ts c) ∧
      (ts ≠ [] → (∀ t ∈ ts, t.kind ≠ .eof) → ∃ e, d.parseTokens ts = .error e) :=
  ⟨descent_returns d hts, fun _ hc hclear => terminates d hts hc hclear,
    exists_parseTokens_eq_error d⟩

-- An operator at the end of all tokens, read again in place of its operand.
def unfinished : List Token :=
  [⟨.ident "x", 0⟩, ⟨.assign, 2⟩, ⟨.number 1, 4⟩, ⟨.operator .add, 6⟩]

theorem unfinished_terminates :
    Returns unfinished (Descent.program full unfinished) ⟨0, []⟩
        (.error ⟨6, .operand, .operator .add⟩) ∧
      Progresses unfinished (Descent.nextProduct unfinished) ⟨3, [0]⟩ := by
  have hparse : full.parseTokens unfinished = .error ⟨6, .operand, .operator .add⟩ := by rfl
  have hlast : ∀ t ∈ unfinished.getLast?, t.kind ≠ .openParen := by decide
  have ⟨hreturns, hpasses, _⟩ := parseTokens_terminates full (.inr hlast)
  have horderly : Cursor.Orderly unfinished ⟨3, [0]⟩ := ⟨by decide, by decide, by decide⟩
  have hclear : Cursor.Clear ⟨3, [0]⟩ := by simp [Cursor.Clear]
  exact ⟨hparse ▸ hreturns, (hpasses ⟨3, [0]⟩ horderly hclear).nextProduct .add rfl⟩

end Dialect

end Imp
