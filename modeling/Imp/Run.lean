import Imp.Program.Printer
import Imp.Trace

/-!
Running a program.

`Stmt.act` is one action: what it records, the environment after it, and the block to run before
whatever follows the statement. `Program.run` repeats it until nothing is left, a name is not
declared, or the step limit would be exceeded.
-/

namespace Imp

-- A name that was used without being declared.
structure Undeclared where
  name : String
deriving DecidableEq, Repr, Inhabited

def Undeclared.message (u : Undeclared) : String :=
  "variable not declared: " ++ u.name

def Expr.eval (env : Env) : Expr → Except Undeclared Int32
  | num v => .ok v
  | var x =>
    match env.get? x with
    | some v => .ok v
    | none => .error ⟨x⟩
  | bin op l r => do return op.apply (← l.eval env) (← r.eval env)

def Cond.eval (env : Env) (c : Cond) : Except Undeclared Bool := do
  return c.rel.holds (← c.left.eval env) (← c.right.eval env)

structure Action where
  event : Event
  env : Env
  block : Program
deriving DecidableEq, Inhabited

def Stmt.act (env : Env) : Stmt → Except Undeclared Action
  | declare x e => do
    let v ← e.eval env
    return ⟨.declared x (env.get? x) v (e.text 0), env.set x v, []⟩
  | assign x e =>
    match env.get? x with
    | none => .error ⟨x⟩
    | some before => do
      let v ← e.eval env
      return ⟨.assigned x before v (e.text 0), env.set x v, []⟩
  | loop c b => do
    let r ← c.eval env
    return ⟨.loopTest c.text r, env, if r then b ++ [loop c b] else []⟩
  | branch c t f => do
    let r ← c.eval env
    return ⟨.branchTest c.text r, env, if r then t else f.getD []⟩

inductive Outcome
  | finished (env : Env)
  | undeclared (u : Undeclared)
  | outOfSteps (limit : Nat)
deriving DecidableEq, Inhabited

-- What was observed, and how it ended.
structure Run where
  trace : Trace
  outcome : Outcome
deriving DecidableEq, Inhabited

-- Runs `todo`, after the entries `seen`, with so many steps left. An action that fails takes no
-- step, and one that would exceed the limit is not recorded. An observer is shown every entry as
-- soon as it is recorded: `see` says what becomes of its memory.
def Run.resume {α : Type} (see : α → Entry → α) (limit : Nat) :
    Nat → Nat → α → Trace → Env → Program → α × Run
  | _, _, memory, seen, env, [] => (memory, ⟨seen.reverse, .finished env⟩)
  | left, step, memory, seen, env, s :: todo =>
    match s.act env with
    | .error u => (memory, ⟨seen.reverse, .undeclared u⟩)
    | .ok a =>
      match left with
      | 0 => (memory, ⟨seen.reverse, .outOfSteps limit⟩)
      | left + 1 =>
        let e := ⟨step, a.event, a.env⟩
        resume see limit left (step + 1) (see memory e) (e :: seen) a.env (a.block ++ todo)

-- The memory that an observer is left with, and the run.
def Program.runObserved {α : Type} (see : α → Entry → α) (memory : α) (limit : Nat) (p : Program) :
    α × Run :=
  Run.resume see limit limit 1 memory [] .empty p

-- The entries that an observer is shown.
def Program.observed (limit : Nat) (p : Program) : Trace :=
  (p.runObserved (fun entries e => entries ++ [e]) [] limit).1

def Program.run (limit : Nat) (p : Program) : Run :=
  (p.runObserved (fun _ _ => ()) () limit).2

end Imp
