import Imp.Error
import Imp.Proofs.Run.Record
import Imp.Proofs.Writable

/-!
A trace certifies itself: what an entry says can be worked out from its own text and the entry
before it.
-/

namespace Imp

namespace Dialect

variable {d : Dialect}

-- The arithmetic expression that a text is read as.
def expr? (d : Dialect) (text : String) : Option Expr :=
  match d.parse ("var x = " ++ text ++ ";") with
  | .ok [.declare _ e] => some e
  | _ => none

-- The condition that a text is read as.
def cond? (d : Dialect) (text : String) : Option Cond :=
  match d.parse ("while (" ++ text ++ ") \x7b \x7d") with
  | .ok [.loop c []] => some c
  | _ => none

theorem expr?_text {e : Expr} (h : e.Writable d) : d.expr? (e.text 0) = some e := by
  have hhead : "var x = " = "var " ++ "x" ++ " = " := by decide
  simp only [expr?, hhead, parse_declaration d.isName_x h]

theorem cond?_text {c : Cond} (h : c.left.Writable d ∧ c.right.Writable d) :
    d.cond? c.text = some c := by
  simp only [cond?, parse_loop h.1 h.2]

-- In these bindings, the text has this value.
def Evaluates (d : Dialect) (env : Env) (text : String) (v : Int32) : Prop :=
  ∃ e, d.expr? text = some e ∧ e.eval env = .ok v

def Decides (d : Dialect) (env : Env) (text : String) (r : Bool) : Prop :=
  ∃ c, d.cond? text = some c ∧ c.eval env = .ok r

end Dialect

-- What an event says is so when it takes the bindings from `env` to `env'`.
def Event.Certified (d : Dialect) (env env' : Env) : Event → Prop
  | declared x before after text =>
    before = env.get? x ∧ d.Evaluates env text after ∧ env' = env.set x after
  | assigned x before after text =>
    some before = env.get? x ∧ d.Evaluates env text after ∧ env' = env.set x after
  | loopTest text r | branchTest text r => d.Decides env text r ∧ env' = env

-- The bindings before the first entry, and those after each entry.
def Trace.envs (t : Trace) : List Env :=
  .empty :: t.map Entry.env

theorem Stmt.Acts.certified {d : Dialect} {env : Env} {s : Stmt} {a : Action} (h : s.Acts env a)
    (hw : s.Writable d) : a.event.Certified d env a.env := by
  cases h with
  | declare value =>
    exact ⟨rfl, ⟨_, Dialect.expr?_text (hw.exprs _ (by simp [exprs])), value⟩, rfl⟩
  | assign bound value =>
    exact ⟨bound.symm, ⟨_, Dialect.expr?_text (hw.exprs _ (by simp [exprs])), value⟩, rfl⟩
  | @loop test _ _ value | @branch test _ _ _ value =>
    have hl := hw.exprs test.left (by simp [exprs])
    have hr := hw.exprs test.right (by simp [exprs])
    exact ⟨⟨_, Dialect.cond?_text ⟨hl, hr⟩, value⟩, rfl⟩

namespace Config.Records

variable {d : Dialect} {limit left step : Nat} {c : Config} {entries : Trace} {outcome : Outcome}

theorem certified (h : Records limit left step c entries outcome) (hw : c.todo.Writable d) {i : Nat}
    {e : Entry} (he : entries[i]? = some e) :
    ∃ env, (c.env :: entries.map Entry.env)[i]? = some env ∧ e.step = step + i ∧
      e.event.Certified d env e.env := by
  induction h generalizing i with
  | finished | undeclared | outOfSteps => simp at he
  | @next left step env s todo a entries outcome action rest ih =>
    cases i with
    | zero =>
      obtain rfl : _ = e := by simpa using he
      have hs := hw s (by simp [Program.parts, s.mem_parts_self])
      exact ⟨env, rfl, rfl, (Stmt.acts_of_act action).certified hs⟩
    | succ i =>
      have he : entries[i]? = some e := by simpa using he
      have hsub := parts_subset_of_next? (next?_cons action todo)
      have ⟨env', henv, hstep, hcert⟩ := ih (fun t ht => hw t (hsub ht)) he
      exact ⟨env', by simpa using henv, by omega, hcert⟩

theorem final_env {env : Env} (h : Records limit left step c entries (.finished env)) :
    (c.env :: entries.map Entry.env)[entries.length]? = some env := by
  generalize ho : Outcome.finished env = outcome at h
  induction h with
  | finished => simpa using (Outcome.finished.inj ho).symm
  | undeclared | outOfSteps => cases ho
  | next action rest ih => simpa using ih ho

end Config.Records

namespace Program

variable {d : Dialect} {text : String} {p : Program}

-- Entries of a run of what has been read from a text are numbered from one on, and say what is so.
-- A run that comes to its end hands back all of them and the bindings after the last one.
theorem observed_certified (h : d.parse text = .ok p) (limit : Nat) :
    (∀ i e, (p.observed limit)[i]? = some e → ∃ env, (p.observed limit).envs[i]? = some env ∧
      e.step = i + 1 ∧ e.event.Certified d env e.env) ∧
    ∀ env t, (p.run limit).result = .ok (env, t) → t = p.observed limit ∧
      (p.observed limit).envs[(p.observed limit).length]? = some env := by
  have hrun := p.run_records limit
  rw [observed_eq_trace]
  refine ⟨fun i e he => ?_, fun env t ht => ?_⟩
  case refine_1 =>
    have ⟨env, henv, hstep, hcert⟩ := hrun.certified (Dialect.writable_of_parse h) he
    exact ⟨env, henv, by omega, hcert⟩
  case refine_2 =>
    simp only [Run.result, bind_eq_ok, pure_eq_ok, Prod.mk.injEq] at ht
    obtain ⟨env', henv, rfl, rfl⟩ := ht
    have ho : (p.run limit).outcome = .finished env' := by
      cases ho : (p.run limit).outcome <;> simp_all [Outcome.result]
    exact ⟨rfl, (ho ▸ hrun).final_env⟩

-- Counts down from four to three, in four entries.
def drain : Program :=
  [.declare "n" (.bin .mul (.num 2) (.bin .sub (.num 3) (.num 1))),
    .loop ⟨.gt, .var "n", .num 3⟩ [.assign "n" (.bin .sub (.var "n") (.num 1))]]

def drainText : String := "var n = 2 * (3 - 1); while (n > 3) \x7b n = n - 1; \x7d"

theorem drain_certified :
    Dialect.full.parse drainText = .ok drain ∧
      (∃ env, (drain.observed 9).envs[2]? = some env ∧
        Event.Certified .full env (Env.empty.set "n" 3) (.assigned "n" 4 3 "n - 1")) ∧
      (drain.observed 9).envs[4]? = some (Env.empty.set "n" 3) := by
  have h : Dialect.full.parse drainText = .ok drain := by decide +kernel
  have ⟨hentries, hend⟩ := observed_certified h 9
  have hentry : (drain.observed 9)[2]? =
      some ⟨3, .assigned "n" 4 3 "n - 1", Env.empty.set "n" 3⟩ := by decide
  have hresult : (drain.run 9).result = .ok (Env.empty.set "n" 3, (drain.run 9).trace) := by rfl
  have hlength : (drain.observed 9).length = 4 := by decide
  have ⟨env, henv, _, hcert⟩ := hentries 2 _ hentry
  exact ⟨h, ⟨env, henv, hcert⟩, hlength ▸ (hend _ _ hresult).2⟩

end Program

end Imp
