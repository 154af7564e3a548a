import Imp.CommandLine
import Imp.Proofs.Except

/-!
How a source fails, and what is left behind then.
-/

namespace Imp

namespace CommandLine

namespace Printed

variable {α β : Type}

@[simp]
theorem result_bind (p : Printed α) (f : α → Printed β) :
    (p >>= f).result = p.result >>= fun a => (f a).result := by
  cases hp : p.result <;> simp [bind, andThen, Except.bind, hp]

@[simp]
theorem result_pure (a : α) : (pure a : Printed α).result = .ok a :=
  rfl

@[simp]
theorem result_ofResult (r : Except Error α) : (ofResult r).result = r :=
  rfl

@[simp]
theorem result_ofText (text : String) : (ofText text).result = .ok () :=
  rfl

end Printed

namespace Options

-- A stage of the processing of a source fails.
inductive Fails (o : Options) (w : Workspace) (d : Disk) (name : String) : Prop
  | reading {e} : w.readSource d name = .error e → Fails o w d name
  | lexing {text e} : w.readSource d name = .ok text → o.dialect.tokens text = .error e →
      Fails o w d name
  | parsing {text ts e} : w.readSource d name = .ok text → o.dialect.tokens text = .ok ts →
      o.dialect.parseTokens ts = .error e → Fails o w d name
  | running {text p e} : w.readSource d name = .ok text → o.dialect.parse text = .ok p →
      (p.run o.maxSteps).outcome.result = .error e → Fails o w d name
  | wat {text p e} : w.readSource d name = .ok text → o.dialect.parse text = .ok p →
      p.watText {} = .error e → Fails o w d name
  | assembly {text p e} : w.readSource d name = .ok text → o.dialect.parse text = .ok p →
      o.asm = true → p.asmText = .error e → Fails o w d name

variable {o : Options} {w : Workspace} {d : Disk} {name : String}

@[simp]
theorem result_printSection (part : Section) (ls : List String) :
    (o.printSection part ls).result = .ok () := by
  unfold printSection
  split <;> rfl

theorem result_printAssembly (p : Program) : (o.printAssembly p).result =
    if o.asm then (p.asmText.mapError .unsupported).map some else .ok none := by
  unfold printAssembly
  split
  case isTrue => cases p.asmText <;> rfl
  case isFalse => rfl

theorem result_printRun (r : Run) : (printRun r).result = r.outcome.result.map fun _ => () := by
  cases h : r.outcome.result <;>
    simp only [printRun, Printed.result_bind, Printed.result_ofText, Printed.result_ofResult, h] <;>
    rfl

-- What is built has come through all stages.
theorem build_eq_ok_iff {b : Build} : (o.build w d name).result = .ok b ↔
    ∃ text, w.readSource d name = .ok text ∧ ∃ s, o.dialect.read text = .ok s ∧
      (∃ env, (s.program.run o.maxSteps).outcome.result = .ok env) ∧
      ∃ wat, s.program.watText {} = .ok wat ∧
        ∃ assembly, (o.printAssembly s.program).result = .ok assembly ∧
          ⟨s.program, (s.program.run o.maxSteps).trace, s.program.pythonText Python.defaultIndent,
            wat, assembly⟩ = b := by
  simp only [build, Printed.result_bind, Printed.result_ofResult, result_printSection,
    result_printRun, Printed.result_pure, bind_eq_ok, mapError_eq_ok, map_eq_ok, Except.ok.injEq,
    and_true, true_and, exists_const]

theorem not_fails_of_build {b : Build} (h : (o.build w d name).result = .ok b) :
    ¬o.Fails w d name := by
  obtain ⟨text, hread, s, hsource, ⟨env, hrun⟩, wat, hwat, asm, hasm, -⟩ := build_eq_ok_iff.mp h
  rw [result_printAssembly] at hasm
  have hparse : o.dialect.parse text = .ok s.program := by
    rw [Dialect.parse, hsource]
    rfl
  intro hfails
  cases hfails with
  | reading h =>
    rw [hread] at h
    nomatch h
  | lexing h ht =>
    cases hread.symm.trans h
    simp [Dialect.read, ht] at hsource
  | parsing h ht hp =>
    cases hread.symm.trans h
    simp [Dialect.read, ht, hp] at hsource
  | running h hp he =>
    cases hread.symm.trans h
    cases hparse.symm.trans hp
    rw [hrun] at he
    nomatch he
  | wat h hp he =>
    cases hread.symm.trans h
    cases hparse.symm.trans hp
    rw [hwat] at he
    nomatch he
  | assembly h hp hwanted he =>
    cases hread.symm.trans h
    cases hparse.symm.trans hp
    rw [if_pos hwanted, he] at hasm
    nomatch hasm

end Options

open Options

variable {o : Options} {w : Workspace} {d : Disk} {name : String} {names pre : List String}
  {headed headed' : Bool} {e : Error}

theorem process_of_error (h : (o.build w d name).result = .error e) :
    process o w d name = (d, ⟨(o.build w d name).text, .error e⟩) := by
  unfold process
  dsimp only
  rw [h]

theorem process_of_ok {b : Build} (h : (o.build w d name).result = .ok b) :
    (process o w d name).1 =
      (saveAll w name d (if o.save then b.artifacts else [])).1 := by
  unfold process
  dsimp only
  rw [h]

-- Nothing is saved of a source that fails.
theorem process_of_fails (h : o.Fails w d name) :
    (process o w d name).1 = d ∧ ∃ e, (process o w d name).2.result = .error e := by
  cases hbuild : (o.build w d name).result with
  | error e =>
    rw [process_of_error hbuild]
    exact ⟨rfl, e, rfl⟩
  | ok b => exact absurd h (not_fails_of_build hbuild)

theorem process_disk_of_not_save (h : o.save = false) : (process o w d name).1 = d := by
  cases hbuild : (o.build w d name).result with
  | error e => rw [process_of_error hbuild]
  | ok b =>
    rw [process_of_ok hbuild, h]
    rfl

section

variable {next : Disk → Answer} {done : Disk × Printed Unit}

theorem processedThen_of_error (h : done.2.result = .error e) :
    (processedThen headed name next done).exit = 1 ∧
      (processedThen headed name next done).disk = done.1 := by
  obtain ⟨d, p⟩ := done
  rw [processedThen, h]
  exact ⟨rfl, rfl⟩

theorem processedThen_of_ok (h : done.2.result = .ok ()) :
    (processedThen headed name next done).exit = (next done.1).exit ∧
      (processedThen headed name next done).disk = (next done.1).disk := by
  obtain ⟨d, p⟩ := done
  rw [processedThen, h]
  exact ⟨rfl, rfl⟩

end

-- What is printed does not matter for what is saved.
theorem processAll_append (h : (processAll o w headed d pre).exit = 0) (headed' : Bool)
    (names : List String) :
    (processAll o w headed' d (pre ++ names)).exit =
        (processAll o w headed' (processAll o w headed d pre).disk names).exit ∧
      (processAll o w headed' d (pre ++ names)).disk =
        (processAll o w headed' (processAll o w headed d pre).disk names).disk := by
  induction pre generalizing d with
  | nil => exact ⟨rfl, rfl⟩
  | cons name pre ih =>
    rw [List.cons_append]
    simp only [processAll] at h ⊢
    cases hresult : (process o w d name).2.result with
    | error e =>
      rw [(processedThen_of_error hresult).1] at h
      nomatch h
    | ok =>
      rw [(processedThen_of_ok hresult).1] at h
      have ⟨hexit, hdisk⟩ := ih h
      rw [(processedThen_of_ok hresult).1, (processedThen_of_ok hresult).2,
        (processedThen_of_ok hresult).2]
      exact ⟨hexit, hdisk⟩

theorem processAll_of_fails (hpre : (processAll o w headed d pre).exit = 0)
    (h : o.Fails w (processAll o w headed d pre).disk name) :
    (processAll o w headed' d (pre ++ name :: names)).exit = 1 ∧
      (processAll o w headed' d (pre ++ name :: names)).disk =
        (processAll o w headed d pre).disk := by
  have ⟨hexit, hdisk⟩ := processAll_append hpre headed' (name :: names)
  obtain ⟨hkept, e, he⟩ := process_of_fails h
  rw [hexit, hdisk, processAll, (processedThen_of_error he).1, (processedThen_of_error he).2, hkept]
  exact ⟨rfl, rfl⟩

-- What every artifact keeps that is saved, a source keeps that is processed.
theorem process_induction {P : Disk → Disk → Prop} (refl : ∀ d, P d d)
    (trans : ∀ {d d' d''}, P d d' → P d' d'' → P d d'')
    (step : ∀ d a contents, P d (w.save d a name contents).1) : P d (process o w d name).1 := by
  have hall : ∀ artifacts d, P d (saveAll w name d artifacts).1 := by
    intro artifacts
    induction artifacts with
    | nil => exact refl
    | cons artifact artifacts ih =>
      intro d
      obtain ⟨a, title, contents⟩ := artifact
      have hstep := step d a contents
      rw [saveAll]
      rcases hsave : w.save d a name contents with ⟨d', e | path⟩ <;> rw [hsave] at hstep
      case error => exact hstep
      case ok => exact trans hstep (ih d')
  cases hbuild : (o.build w d name).result with
  | error e =>
    rw [process_of_error hbuild]
    exact refl d
  | ok b =>
    rw [process_of_ok hbuild]
    exact hall _ d

-- What every source keeps that is processed, all of them keep.
theorem processAll_induction {P : Disk → Disk → Prop} (refl : ∀ d, P d d)
    (trans : ∀ {d d' d''}, P d d' → P d' d'' → P d d'')
    (step : ∀ d, ∀ name ∈ names, P d (process o w d name).1) :
    P d (processAll o w headed d names).disk := by
  induction names generalizing d with
  | nil => exact refl d
  | cons name names ih =>
    have hstep := step d name List.mem_cons_self
    have ih := @ih (process o w d name).1 fun d n hn => step d n (List.mem_cons_of_mem name hn)
    rw [processAll]
    cases hresult : (process o w d name).2.result with
    | error e => rwa [(processedThen_of_error hresult).2]
    | ok => rw [(processedThen_of_ok hresult).2]; exact trans hstep ih

end CommandLine

end Imp
