import Imp.Proofs.Python.Headings
import Imp.Proofs.Run.Certificate

/-!
Which statement of its program each entry of a trace comes from, and that the entry and the Python
line of that statement read the same.

A run is repeated here with statements that know their place in the program. Without the places it
records what the run records.
-/

namespace Imp

-- A statement and its place among all statements of a program, outer ones before inner ones.
structure Site where
  place : Nat
  stmt : Stmt
deriving Repr, Inhabited

-- The statements of a block, the first of which stands at a place.
def Program.sites (place : Nat) : Program → List Site
  | [] => []
  | s :: p => ⟨place, s⟩ :: Program.sites (place + s.parts.length) p

-- The entries of a run, each with the place of the statement that it comes from.
abbrev Trail := List (Nat × Entry)

namespace Site

-- What is to run after an event of a statement, before whatever follows the statement.
def block (s : Site) (e : Event) : List Site :=
  match s.stmt, e with
  | .loop _ b, .loopTest _ true => Program.sites (s.place + 1) b ++ [s]
  | .branch _ t _, .branchTest _ true => Program.sites (s.place + 1) t
  | .branch _ t (some f), .branchTest _ false =>
    Program.sites (s.place + 1 + (Program.parts t).length) f
  | _, _ => []

def trail : Nat → Nat → Env → List Site → Trail
  | left + 1, step, env, s :: todo =>
    match s.stmt.act env with
    | .ok a =>
      (s.place, ⟨step, a.event, a.env⟩) :: trail left (step + 1) a.env (s.block a.event ++ todo)
    | .error _ => []
  | _, _, _, _ => []

end Site

def Program.trail (limit : Nat) (p : Program) : Trail :=
  Site.trail limit 1 .empty (p.sites 0)

section Erasure

theorem Program.map_stmt_sites (p : Program) (place : Nat) : (p.sites place).map Site.stmt = p := by
  induction p generalizing place with
  | nil => rfl
  | cons s p ih => simp [sites, ih]

theorem Site.map_stmt_block {s : Site} {env : Env} {a : Action} (h : s.stmt.Acts env a) :
    (s.block a.event).map Site.stmt = a.block := by
  obtain ⟨place, stmt⟩ := s
  cases h with
  | declare | assign => rfl
  | @loop _ _ r => cases r <;> simp [block, Program.map_stmt_sites]
  | @branch _ _ f r => cases r <;> cases f <;> simp [block, Program.map_stmt_sites]

-- Places change nothing about what is recorded.
theorem Config.Records.map_trail {limit left step : Nat} {c : Config} {entries : Trace}
    {outcome : Outcome} (h : Records limit left step c entries outcome) {todo : List Site}
    (ht : todo.map Site.stmt = c.todo) :
    (Site.trail left step c.env todo).map Prod.snd = entries := by
  induction h generalizing todo with
  | finished =>
    obtain rfl := List.map_eq_nil_iff.mp ht
    simp [Site.trail]
  | @undeclared left _ _ s _ _ failure =>
    obtain ⟨s, todo, rfl, rfl, -⟩ := List.map_eq_cons_iff.mp ht
    cases left <;> simp [Site.trail, failure]
  | outOfSteps action =>
    obtain ⟨s, todo, rfl, rfl, -⟩ := List.map_eq_cons_iff.mp ht
    rfl
  | @next _ _ _ _ _ a _ _ action rest ih =>
    obtain ⟨s, todo, rfl, rfl, rfl⟩ := List.map_eq_cons_iff.mp ht
    have hblock : (s.block a.event ++ todo).map Site.stmt = a.block ++ todo.map Site.stmt := by
      rw [List.map_append, Site.map_stmt_block (Stmt.acts_of_act action)]
    simp [Site.trail, action, ih hblock]

end Erasure

section Places

variable {all : List Stmt} {place : Nat}

-- The statement and what is inside of it are found at its place.
def Site.In (all : List Stmt) (s : Site) : Prop :=
  s.stmt.parts <+: all.drop s.place

theorem prefix_drop_of_append {us vs : List Stmt} (h : us ++ vs <+: all.drop place) :
    vs <+: all.drop (place + us.length) := by
  obtain ⟨ws, hws⟩ := h
  exact ⟨ws, by rw [← List.drop_drop, ← hws]; simp⟩

theorem Program.in_of_mem_sites {p : Program} (h : p.parts <+: all.drop place) :
    ∀ s ∈ p.sites place, s.In all := by
  induction p generalizing place with
  | nil => simp [sites]
  | cons s p ih =>
    exact List.forall_mem_cons.mpr
      ⟨(List.prefix_append ..).trans h, ih (prefix_drop_of_append h)⟩

namespace Site.In

variable {s : Site}

theorem getElem? (h : s.In all) : all[s.place]? = some s.stmt := by
  obtain ⟨rest, hrest⟩ := h
  rw [Stmt.parts_eq] at hrest
  have hhead : (all.drop s.place)[0]? = some s.stmt := by simp [← hrest]
  simpa using hhead

theorem block {env : Env} {a : Action} (h : s.In all) (ha : s.stmt.Acts env a) :
    ∀ t ∈ s.block a.event, t.In all := by
  obtain ⟨place, stmt⟩ := s
  -- Every block starts behind the statement itself.
  have hinner : ∀ us vs : List Stmt, stmt.parts = stmt :: (us ++ vs) →
      us ++ vs <+: all.drop (place + 1) := by
    intro us vs hparts
    have hall : [stmt] ++ (us ++ vs) <+: all.drop place := by simpa [Site.In, hparts] using h
    exact prefix_drop_of_append hall
  cases ha with
  | declare | assign => simp [Site.block]
  | @loop test b r =>
    cases r with
    | false => simp [Site.block]
    | true =>
      have hb : Program.parts b <+: all.drop (place + 1) := by
        simpa using hinner (Program.parts b) [] (by simp [Stmt.parts])
      exact List.forall_mem_append.mpr ⟨Program.in_of_mem_sites hb, by simpa using h⟩
  | @branch test t f r =>
    cases r <;> cases f
    case false.none => simp [Site.block]
    case true.none =>
      have ht : Program.parts t <+: all.drop (place + 1) := by
        simpa using hinner (Program.parts t) [] (by simp [Stmt.parts])
      exact Program.in_of_mem_sites ht
    case true.some f =>
      have ht := hinner (Program.parts t) (Program.parts f) (by simp [Stmt.parts])
      exact Program.in_of_mem_sites ((List.prefix_append ..).trans ht)
    case false.some f =>
      have ht := hinner (Program.parts t) (Program.parts f) (by simp [Stmt.parts])
      exact Program.in_of_mem_sites (prefix_drop_of_append ht)

end Site.In

-- An entry is that of an action of the statement at its place, with what was bound before it.
theorem Site.trail_cases {left step : Nat} {env : Env} {todo : List Site} {k i : Nat} {e : Entry}
    (hin : ∀ s ∈ todo, s.In all) (he : (trail left step env todo)[k]? = some (i, e)) :
    ∃ s env' a, all[i]? = some s ∧
      (env :: (trail left step env todo).map (·.2.env))[k]? = some env' ∧ s.act env' = .ok a ∧
      e = ⟨step + k, a.event, a.env⟩ := by
  induction left generalizing step env todo k with
  | zero => simp [trail] at he
  | succ left ih =>
    cases todo with
    | nil => simp [trail] at he
    | cons s todo =>
      have ⟨hs, htodo⟩ := List.forall_mem_cons.mp hin
      cases ha : s.stmt.act env with
      | error u => simp [trail, ha] at he
      | ok a =>
        simp only [trail, ha] at he ⊢
        cases k with
        | zero =>
          obtain ⟨rfl, rfl⟩ : s.place = i ∧ _ = e := by simpa using he
          exact ⟨s.stmt, env, a, hs.getElem?, rfl, ha, rfl⟩
        | succ k =>
          have hnext : ∀ t ∈ s.block a.event ++ todo, t.In all :=
            List.forall_mem_append.mpr ⟨hs.block (Stmt.acts_of_act ha), htodo⟩
          have he : (trail left (step + 1) a.env (s.block a.event ++ todo))[k]? = some (i, e) := by
            simpa using he
          obtain ⟨s', env', a', hs', henv, ha', rfl⟩ := ih hnext he
          exact ⟨s', env', a', hs', by simpa using henv, ha', by rw [Nat.add_right_comm]; rfl⟩

end Places

-- The line that an event says has been carried out.
def Event.heading : Event → String
  | declared x _ _ text | assigned x _ _ text => x ++ " = " ++ text
  | loopTest text _ => "while " ++ text ++ ":"
  | branchTest text _ => "if " ++ text ++ ":"

theorem Stmt.Acts.heading_event {env : Env} {s : Stmt} {a : Action} (h : s.Acts env a) :
    a.event.heading = s.heading := by
  cases h <;> rfl

namespace Program

open Python

variable {d : Dialect} {indent : String} {p : Program}

theorem map_trail (limit : Nat) (p : Program) : (p.trail limit).map Prod.snd = p.observed limit :=
  observed_eq_trace limit p ▸ (p.run_records limit).map_trail (p.map_stmt_sites 0)

-- The entries of a run, told apart by the statements that they come from, are what the run records,
-- and each reads the same as the line of its statement. The statements and the lines of the text
-- that are not `pass` or `else:` stand in the same order.
theorem trail_headings (hi : indent.toList.all isBlank) (hp : ∀ x ∈ p.mentions, d.IsName x)
    (limit : Nat) :
    headings (p.pythonText indent) = p.parts.map Stmt.heading ∧
    (p.trail limit).map Prod.snd = p.observed limit ∧
    ∀ (k i : Nat) (e : Entry), (p.trail limit)[k]? = some (i, e) →
      (∃ s env a, p.parts[i]? = some s ∧ (p.observed limit).envs[k]? = some env ∧
        s.act env = .ok a ∧ e = ⟨k + 1, a.event, a.env⟩) ∧
      (headings (p.pythonText indent))[i]? = some e.event.heading := by
  have hheadings := headings_pythonText hi hp
  refine ⟨hheadings, map_trail limit p, fun k i e he => ?_⟩
  have hin : ∀ s ∈ p.sites 0, s.In p.parts := in_of_mem_sites (by simp)
  obtain ⟨s, env, a, hs, henv, ha, rfl⟩ := Site.trail_cases hin he
  have henv : (p.observed limit).envs[k]? = some env := by
    rw [← map_trail, Trace.envs, List.map_map]
    exact henv
  refine ⟨⟨s, env, a, hs, henv, ha, by rw [Nat.add_comm]⟩, ?_⟩
  rw [hheadings, List.getElem?_map, hs, Option.map_some, (Stmt.acts_of_act ha).heading_event]

-- Counts down from two by the same assignment in either branch.
def twins : Program :=
  [.declare "n" (.num 2),
    .loop ⟨.gt, .var "n", .num 0⟩
      [.branch ⟨.gt, .var "n", .num 1⟩ [.assign "n" (.bin .sub (.var "n") (.num 1))]
        (some [.assign "n" (.bin .sub (.var "n") (.num 1))]),
        .loop ⟨.lt, .var "n", .num (-1)⟩ []]]

theorem twins_headings :
    headings (twins.pythonText "\t ") =
      ["n = 2", "while n > 0:", "if n > 1:", "n = n - 1", "n = n - 1", "while n < -1:"] ∧
    (twins.trail 7).map Prod.fst = [0, 1, 2, 3, 5, 1, 2] ∧
    ∃ e, (twins.observed 7)[6]? = some e ∧ "if n > 1:" = e.event.heading := by
  have hp : ∀ x ∈ twins.mentions, Dialect.full.IsName x := by
    intro x hx
    have hx : x = "n" := by revert hx x; decide
    exact hx ▸ ⟨by decide, by decide, by decide⟩
  have hi : "\t ".toList.all isBlank := by decide
  have ⟨hheadings, hobserved, hlines⟩ := trail_headings hi hp 7
  have hparts : twins.parts.map Stmt.heading =
      ["n = 2", "while n > 0:", "if n > 1:", "n = n - 1", "n = n - 1", "while n < -1:"] := by decide
  have ⟨e, he⟩ : ∃ e, (twins.trail 7)[6]? = some (2, e) := ⟨_, rfl⟩
  have hline := (hlines 6 2 e he).2
  rw [hheadings, hparts] at hline
  refine ⟨hheadings.trans hparts, by decide, e, ?_, Option.some.inj hline⟩
  rw [← hobserved, List.getElem?_map, he, Option.map_some]

end Program

end Imp
