import Imp.Proofs.Asm.Cells
import Imp.Proofs.Evaluation
import Imp.Proofs.Run.Record

/-!
The names that are bound in the course of a run. Nothing but a declaration that is carried out binds
a name, so what is bound has been declared by an entry, and is declared somewhere in the program.
-/

namespace Imp

-- The name that an event declares.
def Event.declares? : Event → Option String
  | declared x .. => some x
  | assigned .. | loopTest .. | branchTest .. => none

-- The names of the declarations among some entries.
def Trace.declares (t : Trace) : List String :=
  t.filterMap (·.event.declares?)

theorem Trace.mem_declares_cons {e : Entry} {t : Trace} {x : String} :
    x ∈ declares (e :: t) ↔ e.event.declares? = some x ∨ x ∈ t.declares := by
  simp [declares]

theorem Stmt.Acts.mem_names_iff {env : Env} {s : Stmt} {a : Action} {x : String}
    (h : s.Acts env a) : x ∈ a.env.names ↔ x ∈ env.names ∨ a.event.declares? = some x := by
  cases h with
  | @declare y => simp [Env.mem_names_set, Event.declares?, or_comm, eq_comm]
  | @assign y e before v bound =>
    have hy : y ∈ env.names := Env.mem_names_iff.mpr ⟨before, bound⟩
    simp only [Env.mem_names_set, Event.declares?, reduceCtorEq, or_false]
    exact ⟨fun h => h.elim (· ▸ hy) id, .inr⟩
  | loop | branch => simp [Event.declares?]

-- What an action fails with is a name that its statement uses, and that is not bound.
theorem Stmt.mem_uses_of_act {env : Env} {s : Stmt} {u : Undeclared} (h : s.act env = .error u) :
    u.name ∈ s.uses ∧ u.name ∉ env.names := by
  obtain ⟨before, after, huses, _, hu⟩ := (s.act_resolves env).eq_error_iff.mp h
  exact ⟨by simp [huses], hu⟩

theorem Program.uses_subset {p q : Program} (h : p.parts ⊆ q.parts) : p.uses ⊆ q.uses := by
  intro x hx
  have ⟨s, hs, hx⟩ := List.mem_flatMap.mp hx
  exact List.mem_flatMap.mpr ⟨s, h hs, hx⟩

namespace Config.Records

variable {limit left step : Nat} {c : Config} {entries : Trace} {outcome : Outcome} {x : String}

-- What is bound at an entry was bound before, or has been declared since.
theorem mem_names_iff (h : Records limit left step c entries outcome) {i : Nat} {e : Entry}
    (he : entries[i]? = some e) :
    x ∈ e.env.names ↔ x ∈ c.env.names ∨ x ∈ Trace.declares (entries.take (i + 1)) := by
  induction h generalizing i with
  | finished | undeclared | outOfSteps => simp at he
  | @next left step env s todo a entries outcome action rest ih =>
    have hstep : x ∈ a.env.names ↔ x ∈ env.names ∨ a.event.declares? = some x :=
      (Stmt.acts_of_act action).mem_names_iff
    cases i with
    | zero =>
      obtain rfl : _ = e := by simpa using he
      simp [hstep, Trace.declares]
    | succ i =>
      have hrest : x ∈ e.env.names ↔ x ∈ a.env.names ∨ x ∈ Trace.declares (entries.take (i + 1)) :=
        ih (by simpa using he)
      rw [hrest, hstep, List.take_succ_cons, Trace.mem_declares_cons, or_assoc]

theorem names_subset {mode : Introduces} {names : List String}
    (h : Records limit left step c entries outcome) (hc : c.Scoped mode names) :
    ∀ e ∈ entries, e.env.names ⊆ names := by
  induction h with
  | finished | undeclared | outOfSteps => simp
  | @next left step env s todo a entries outcome action rest ih =>
    have hnext := hc.next (next?_cons action todo)
    refine List.forall_mem_cons.mpr ⟨fun x hx => ?_, ih hnext⟩
    have ⟨v, hv⟩ := Env.mem_names_iff.mp hx
    exact hnext.env hv

-- A run that fails for a name has not bound it, whatever it has bound before.
theorem undeclared_not_bound {u : Undeclared}
    (h : Records limit left step c entries (.undeclared u)) :
    u.name ∈ c.todo.uses ∧
      ∀ env ∈ (c.env :: entries.map Entry.env).getLast?, u.name ∉ env.names := by
  generalize ho : Outcome.undeclared u = outcome at h
  induction h with
  | finished | outOfSteps => cases ho
  | @undeclared _ _ env s todo _ failure =>
    obtain rfl := Outcome.undeclared.inj ho
    have ⟨huses, hbound⟩ := Stmt.mem_uses_of_act failure
    refine ⟨?_, by simpa using hbound⟩
    rw [Program.uses_cons, List.append_assoc]
    exact List.mem_append_left _ huses
  | @next _ _ _ s todo a entries _ action rest ih =>
    have ⟨huses, hbound⟩ := ih ho
    refine ⟨Program.uses_subset (parts_subset_of_next? (next?_cons action todo)) huses, ?_⟩
    simpa [List.getLast?_cons] using hbound

end Config.Records

namespace Program

-- At every entry, what is bound are the names of the declarations recorded so far. The program
-- declares all of them, which makes them locals of its WebAssembly and gives them cells in its
-- assembly. A name that a run fails for is used in the program, and is not bound at the last entry.
theorem observed_names (limit : Nat) (p : Program) :
    (∀ i e, (p.observed limit)[i]? = some e →
      (∀ x, x ∈ e.env.names ↔ x ∈ Trace.declares ((p.observed limit).take (i + 1))) ∧
      e.env.names ⊆ p.names .declarations ∧
      (∀ o m, p.watModule o = .ok m → e.env.names ⊆ m.locals) ∧
      ∀ code, p.asmCode = .ok code →
        ∀ x ∈ e.env.names, code.data.count ("var_" ++ x ++ ": DB 0") = 1) ∧
    ∀ u, (p.run limit).outcome = .undeclared u →
      u.name ∈ p.uses ∧ ∀ e ∈ (p.observed limit).getLast?, u.name ∉ e.env.names := by
  have hrun := p.run_records limit
  rw [observed_eq_trace]
  refine ⟨fun i e he => ?_, fun u hu => ?_⟩
  case refine_1 =>
    have hdeclared := hrun.names_subset (start_scoped .declarations p) e (List.mem_of_getElem? he)
    refine ⟨fun x => by simpa using hrun.mem_names_iff he, hdeclared, fun o m hm => ?_,
      fun code hcode x hx => ?_⟩
    · exact (watModule_eq_ok hm).2.1 ▸ hdeclared
    · have ⟨v, hv⟩ := mem_names_declarations.mp (hdeclared hx)
      exact (count_data hcode x).1 ⟨v, .inl hv⟩
  case refine_2 =>
    have ⟨huses, hbound⟩ := (hu ▸ hrun).undeclared_not_bound
    refine ⟨huses, fun e he => hbound e.env ?_⟩
    simp [List.getLast?_cons, Option.mem_def.mp he]

-- Declares one name in a loop and another one in a branch that is not taken.
def skipped : Program :=
  [.declare "x" (.num 1),
    .loop ⟨.gt, .var "x", .num 0⟩
      [.declare "y" (.var "x"), .assign "x" (.bin .sub (.var "x") (.num 1))],
    .branch ⟨.gt, .var "x", .num 0⟩ [.declare "z" (.num 1)] none,
    .assign "y" (.bin .add (.var "y") (.var "z"))]

theorem skipped_names :
    (skipped.run 9).outcome = .undeclared ⟨"z"⟩ ∧ "z" ∈ skipped.uses ∧
      ∃ e, (skipped.observed 9).getLast? = some e ∧ "z" ∉ e.env.names ∧
        ∀ x, x ∈ e.env.names ↔ x = "x" ∨ x = "y" := by
  have hu : (skipped.run 9).outcome = .undeclared ⟨"z"⟩ := by decide
  have ⟨e, he⟩ : ∃ e, (skipped.observed 9)[5]? = some e := ⟨_, rfl⟩
  have hlast : (skipped.observed 9).getLast? = some e := he
  have ⟨hentries, hend⟩ := observed_names 9 skipped
  have ⟨huses, hbound⟩ := hend _ hu
  have hdeclares : Trace.declares ((skipped.observed 9).take 6) = ["x", "y"] := by decide
  refine ⟨hu, huses, e, hlast, hbound e hlast, fun x => ?_⟩
  rw [(hentries 5 e he).1 x, hdeclares]
  simp

end Program

end Imp
