import Imp.CommandLine
import Mathlib.Data.List.Induction

/-!
The switches for the sections of the output. Of the two switches for a section the later one counts.
A switch that is given again, without its opposite in between, is refused.
-/

namespace Imp

namespace CommandLine

-- A switch for a section.
structure Choice where
  part : Section
  shown : Bool
deriving DecidableEq, Repr, Inhabited

namespace Choice

def switch (c : Choice) : Switch :=
  if c.shown then .reveal c.part else .hide c.part

def opposite (c : Choice) : Choice :=
  { c with shown := !c.shown }

-- How it is given on the command line.
def text (c : Choice) : String :=
  "--" ++ c.switch.name

end Choice

variable {cs ds before after : List Choice} {c d : Choice} {p : Section}

-- A switch has been given, and its opposite not since.
def Stands (cs : List Choice) (c : Choice) : Prop :=
  ∃ before after, cs = before ++ c :: after ∧ c.opposite ∉ after

-- No switch is given while it stands.
def Clean (cs : List Choice) : Prop :=
  ∀ before c after, cs = before ++ c :: after → ¬Stands before c

-- A switch is given while it stands, and none is before that.
def FirstRecurs (cs : List Choice) (c : Choice) : Prop :=
  ∃ before after, cs = before ++ c :: after ∧ Clean before ∧ Stands before c

-- No switch for the section is given, or the last one for it reveals it.
def Selects (cs : List Choice) (p : Section) : Prop :=
  (∀ c ∈ cs, c.part ≠ p) ∨
    ∃ before after, cs = before ++ ⟨p, true⟩ :: after ∧ ∀ c ∈ after, c.part ≠ p

section Sequences

theorem eq_concat_cons_iff {α : Type} {xs before after : List α} {x y : α} :
    xs ++ [x] = before ++ y :: after ↔
      xs = before ∧ x = y ∧ after = [] ∨
        ∃ rest, after = rest ++ [x] ∧ xs = before ++ y :: rest := by
  constructor
  case mp =>
    intro h
    obtain rfl | ⟨rest, z, rfl⟩ := List.eq_nil_or_concat after
    case inl =>
      obtain ⟨rfl, hx⟩ := List.append_inj' h rfl
      exact .inl ⟨rfl, List.singleton_inj.mp hx, rfl⟩
    case inr =>
      rw [List.concat_eq_append, ← List.cons_append, ← List.append_assoc] at h
      obtain ⟨rfl, hx⟩ := List.append_inj' h rfl
      exact .inr ⟨rest, by rw [List.singleton_inj.mp hx, List.concat_eq_append], rfl⟩
  case mpr =>
    rintro (⟨rfl, rfl, rfl⟩ | ⟨rest, rfl, rfl⟩)
    case inl => rfl
    case inr => simp

theorem not_stands_nil (c : Choice) : ¬Stands [] c := by
  rintro ⟨before, after, h, -⟩
  simp at h

theorem stands_concat_iff : Stands (cs ++ [d]) c ↔ d = c ∨ Stands cs c ∧ d ≠ c.opposite := by
  simp only [Stands, eq_concat_cons_iff]
  constructor
  case mp =>
    rintro ⟨before, after, ⟨rfl, rfl, rfl⟩ | ⟨rest, rfl, rfl⟩, hafter⟩
    case inl => exact .inl rfl
    case inr =>
      rw [List.mem_append, not_or, List.mem_singleton] at hafter
      exact .inr ⟨⟨before, rest, rfl, hafter.1⟩, Ne.symm hafter.2⟩
  case mpr =>
    rintro (rfl | ⟨⟨before, rest, rfl, hrest⟩, hne⟩)
    case inl => exact ⟨cs, [], .inl ⟨rfl, rfl, rfl⟩, List.not_mem_nil⟩
    case inr =>
      refine ⟨before, rest ++ [d], .inr ⟨rest, rfl, rfl⟩, ?_⟩
      rw [List.mem_append, not_or, List.mem_singleton]
      exact ⟨hrest, Ne.symm hne⟩

theorem clean_nil : Clean [] := by
  rintro before c after h
  simp at h

theorem clean_concat_iff : Clean (cs ++ [d]) ↔ Clean cs ∧ ¬Stands cs d := by
  simp only [Clean, eq_concat_cons_iff]
  constructor
  case mp =>
    intro h
    refine ⟨fun before c rest hcs => ?_, h cs d [] (.inl ⟨rfl, rfl, rfl⟩)⟩
    exact h before c (rest ++ [d]) (.inr ⟨rest, rfl, hcs⟩)
  case mpr =>
    rintro ⟨hcs, hd⟩ before c after (⟨rfl, rfl, -⟩ | ⟨rest, -, h⟩)
    case inl => exact hd
    case inr => exact hcs before c rest h

theorem FirstRecurs.not_clean (h : FirstRecurs cs c) : ¬Clean cs := by
  obtain ⟨before, after, rfl, -, hstands⟩ := h
  exact fun hclean => hclean before c after rfl hstands

theorem selects_concat_iff :
    Selects (cs ++ [d]) p ↔ if d.part = p then d.shown = true else Selects cs p := by
  simp only [Selects, eq_concat_cons_iff, List.forall_mem_append, List.forall_mem_singleton]
  split
  case isTrue hp =>
    constructor
    case mp =>
      rintro (⟨-, hne⟩ | ⟨before, after, ⟨-, rfl, -⟩ | ⟨rest, rfl, -⟩, hafter⟩)
      case inl => exact absurd hp hne
      case inr.inl => rfl
      case inr.inr => exact absurd hp (hafter d (by simp))
    case mpr =>
      intro hd
      have hd : d = ⟨p, true⟩ := by rw [← hp, ← hd]
      exact .inr ⟨cs, [], .inl ⟨rfl, hd, rfl⟩, nofun⟩
  case isFalse hp =>
    constructor
    case mp =>
      rintro (⟨hcs, -⟩ | ⟨before, after, ⟨-, rfl, -⟩ | ⟨rest, rfl, rfl⟩, hafter⟩)
      case inl => exact .inl hcs
      case inr.inl => exact absurd rfl hp
      case inr.inr =>
        exact .inr ⟨before, rest, rfl, fun c hc => hafter c (List.mem_append_left _ hc)⟩
    case mpr =>
      rintro (hcs | ⟨before, rest, rfl, hrest⟩)
      case inl => exact .inl ⟨hcs, hp⟩
      case inr =>
        refine .inr ⟨before, rest ++ [d], .inr ⟨rest, rfl, rfl⟩, fun c hc => ?_⟩
        obtain hc | hc := List.mem_append.mp hc
        case inl => exact hrest c hc
        case inr => exact List.mem_singleton.mp hc ▸ hp

-- The default-on rule says what the last switch for a section says.
theorem selects_iff_stands (cs : List Choice) (p : Section) :
    Selects cs p ↔ Stands cs ⟨p, true⟩ ∨ ¬Stands cs ⟨p, false⟩ := by
  induction cs using List.reverseRecOn with
  | nil => simp [Selects, not_stands_nil]
  | append_singleton cs d ih =>
    obtain ⟨part, shown⟩ := d
    simp only [selects_concat_iff, stands_concat_iff, ih, Choice.opposite]
    by_cases hp : part = p <;> cases shown <;> simp [hp]

theorem stands_iff_getElem : Stands cs c ↔
    ∃ i : Fin cs.length, cs[i] = c ∧ c.opposite ∉ cs.drop (i + 1) := by
  constructor
  case mp =>
    rintro ⟨before, after, rfl, hafter⟩
    have hdrop : (before ++ c :: after).drop (before.length + 1) = after := by
      rw [← List.drop_drop, List.drop_left, List.drop_one, List.tail_cons]
    exact ⟨⟨before.length, by simp⟩, by simp, hdrop.symm ▸ hafter⟩
  case mpr =>
    rintro ⟨i, rfl, hdrop⟩
    exact ⟨cs.take i, cs.drop (i + 1), by simp, hdrop⟩

theorem clean_iff_getElem : Clean cs ↔ ∀ i : Fin cs.length, ¬Stands (cs.take i) cs[i] := by
  constructor
  case mp => exact fun h i => h (cs.take i) cs[i] (cs.drop (i + 1)) (by simp)
  case mpr =>
    rintro h before c after rfl
    simpa using h ⟨before.length, by simp⟩

instance : Decidable (Stands cs c) :=
  decidable_of_iff _ stands_iff_getElem.symm

instance : Decidable (Clean cs) :=
  decidable_of_iff _ clean_iff_getElem.symm

instance : Decidable (Selects cs p) :=
  decidable_of_iff _ (selects_iff_stands cs p).symm

end Sequences

theorem Choice.switch_inj : c.switch = d.switch ↔ c = d := by
  constructor
  case mp =>
    obtain ⟨p, a⟩ := c
    obtain ⟨q, b⟩ := d
    cases a <;> cases b <;> simp [switch]
  case mpr => exact congrArg switch

theorem Choice.opposite?_switch (c : Choice) : c.switch.opposite? = some c.opposite.switch := by
  obtain ⟨p, a⟩ := c
  cases a <;> rfl

theorem Choice.eq_opposite_comm : c = d.opposite ↔ d = c.opposite := by
  obtain ⟨p, a⟩ := c
  obtain ⟨q, b⟩ := d
  cases a <;> cases b <;> simp [opposite, eq_comm]

-- What is accepted are the switches that stand.
def Given.Holds (g : Given) (cs : List Choice) : Prop :=
  ∀ c : Choice, c.switch ∈ g.switches ↔ Stands cs c

namespace Given

variable {g : Given}

theorem acceptSwitch_of_stands (h : g.Holds cs) (hc : Stands cs c) :
    g.acceptSwitch c.switch = .error (.repeated (.switch c.switch)) := by
  rw [acceptSwitch, if_pos ((h c).mpr hc)]

theorem acceptSwitch_of_not_stands (h : g.Holds cs) (hc : ¬Stands cs c) :
    ∃ g' : Given, g.acceptSwitch c.switch = .ok g' ∧ g'.Holds (cs ++ [c]) ∧ g'.file = g.file := by
  rw [acceptSwitch, if_neg (mt (h c).mp hc)]
  refine ⟨_, rfl, fun d => ?_, rfl⟩
  rw [List.mem_cons, List.mem_filter, h d, stands_concat_iff, Choice.switch_inj,
    Choice.opposite?_switch, decide_eq_true_eq, Ne, Option.some_inj, Choice.switch_inj,
    Choice.eq_opposite_comm, eq_comm]

-- Of the two switches for a section the one that stands decides.
theorem Holds.shown_options (h : g.Holds cs) (p : Section) :
    g.options.shown p = true ↔ Selects cs p := by
  have hreveal := h ⟨p, true⟩
  have hhide := h ⟨p, false⟩
  simp only [Choice.switch, if_true, Bool.false_eq_true, if_false] at hreveal hhide
  rw [selects_iff_stands, ← hreveal, ← hhide]
  simp [options]

end Given

namespace Scan

variable {s : Scan} {file : Option String} {name : String}

-- What has been scanned are these switches, and this file among them.
structure Met (s : Scan) (cs : List Choice) (file : Option String) : Prop where
  filesOnly : s.filesOnly = false
  hasFile : s.hasFile = file.isSome
  holds : s.given.Holds cs
  file : s.pending = none ∧ s.given.file = file ∨
    s.pending = file.map (fun name => (.file, some name)) ∧ s.given.file = none

theorem met_start : Met {} [] none where
  filesOnly := rfl
  hasFile := rfl
  holds c := by simp [not_stands_nil]
  file := .inl ⟨rfl, rfl⟩

-- A file can always be accepted.
theorem Met.settle (h : s.Met cs file) :
    ∃ s' : Scan, s.settle = .ok s' ∧ s'.Met cs file ∧ s'.pending = none ∧ s'.given.file = file := by
  obtain ⟨hpending, hfile⟩ | ⟨hpending, hfile⟩ := h.file
  case inl => exact ⟨s, by rw [Scan.settle, hpending], h, hpending, hfile⟩
  case inr =>
    cases file with
    | none => exact ⟨s, by rw [Scan.settle, hpending]; rfl, h, hpending, hfile⟩
    | some name =>
      have haccept : s.given.accept .file (some name) = .ok { s.given with file := some name } := by
        rw [Given.accept, Given.acceptFile, hfile]
        rfl
      refine ⟨{ s with given := { s.given with file := some name }, pending := none }, ?_,
        ⟨h.filesOnly, h.hasFile, h.holds, .inl ⟨rfl, rfl⟩⟩, rfl, rfl⟩
      rw [Scan.settle, hpending, Option.map_some]
      simp only [haccept]

theorem ofName?_switch (c : Choice) : Argument.ofName? c.switch.name = some (.switch c.switch) := by
  obtain ⟨part, shown⟩ := c
  cases part <;> cases shown <;> rfl

theorem next_text (hs : s.filesOnly = false) (c : Choice) :
    s.next c.text = s.settle >>= fun s =>
      match s.given.acceptSwitch c.switch with
      | .error e => fail e
      | .ok g => .ok { s with given := g } := by
  have hlong : s.next c.text = s.long c.switch.name none := by
    obtain ⟨part, shown⟩ := c
    rw [next, if_neg (by simp [hs])]
    cases part <;> cases shown <;> rfl
  unfold long at hlong
  rw [ofName?_switch] at hlong
  exact hlong

theorem Met.next_of_stands (h : s.Met cs file) (hc : Stands cs c) :
    s.next c.text = .error (.error (.repeated (.switch c.switch))) := by
  obtain ⟨s', hsettle, hmet, -⟩ := h.settle
  rw [next_text h.filesOnly]
  simp only [hsettle, bind, Except.bind, Given.acceptSwitch_of_stands hmet.holds hc, fail]

theorem Met.next_of_not_stands (h : s.Met cs file) (hc : ¬Stands cs c) :
    ∃ s' : Scan, s.next c.text = .ok s' ∧ s'.Met (cs ++ [c]) file := by
  obtain ⟨s', hsettle, hmet, hpending, hfile⟩ := h.settle
  obtain ⟨g, haccept, hholds, hsame⟩ := Given.acceptSwitch_of_not_stands hmet.holds hc
  refine ⟨{ s' with given := g }, ?_, hmet.filesOnly, hmet.hasFile, hholds,
    .inl ⟨hpending, hsame.trans hfile⟩⟩
  rw [next_text h.filesOnly]
  simp only [hsettle, bind, Except.bind, haccept]

theorem Met.next_file (h : s.Met cs none) (hname : name.toList.head? ≠ some '-') :
    ∃ s' : Scan, s.next name = .ok s' ∧ s'.Met cs (some name) := by
  obtain ⟨s', hsettle, hmet, hpending, hfile⟩ := h.settle
  have hplain : s.next name = s.file name := by
    unfold next
    rw [if_neg (by simp [h.filesOnly])]
    split
    case h_1 hdash | h_2 hdash | h_3 hdash => simp [hdash] at hname
    case h_4 =>
      obtain ⟨hnone, -⟩ | ⟨hnone, -⟩ := h.file <;> simp [plain, hnone]
  refine ⟨{ s' with pending := some (.file, some name), hasFile := true }, ?_,
    hmet.filesOnly, rfl, hmet.holds, .inr ⟨rfl, hfile⟩⟩
  rw [hplain, Scan.file, if_neg (by simp [h.hasFile]), hsettle]
  rfl

-- Switches are scanned up to the first that recurs.
theorem Met.all_text (h : s.Met cs file) (hcs : Clean cs) (ds : List Choice) (rest : List String) :
    (Clean (cs ++ ds) ∧ ∃ s' : Scan, s'.Met (cs ++ ds) file ∧
      s.all (ds.map Choice.text ++ rest) = s'.all rest) ∨
    ∃ c, FirstRecurs (cs ++ ds) c ∧
      s.all (ds.map Choice.text ++ rest) = .error (.error (.repeated (.switch c.switch))) := by
  induction ds generalizing cs s with
  | nil => exact .inl ⟨by simpa using hcs, s, by simpa using h, rfl⟩
  | cons d ds ih =>
    by_cases hd : Stands cs d
    case pos =>
      refine .inr ⟨d, ⟨cs, ds, rfl, hcs, hd⟩, ?_⟩
      rw [List.map_cons, List.cons_append, all, h.next_of_stands hd]
      rfl
    case neg =>
      obtain ⟨s', hnext, hmet⟩ := h.next_of_not_stands hd
      have hall : s.all ((d :: ds).map Choice.text ++ rest) =
          s'.all (ds.map Choice.text ++ rest) := by
        rw [List.map_cons, List.cons_append, all, hnext]
        rfl
      rw [hall, List.append_cons]
      exact ih hmet (clean_concat_iff.mpr ⟨hcs, hd⟩)

theorem Met.all_file (h : s.Met cs none) (hfile : ∀ name ∈ file, name.toList.head? ≠ some '-')
    (rest : List String) :
    ∃ s' : Scan, s'.Met cs file ∧ s.all (file.toList ++ rest) = s'.all rest := by
  cases file with
  | none => exact ⟨s, h, rfl⟩
  | some name =>
    obtain ⟨s', hnext, hmet⟩ := h.next_file (hfile name rfl)
    refine ⟨s', hmet, ?_⟩
    rw [Option.toList_some, List.singleton_append, all, hnext]
    rfl

end Scan

-- Switches with a file somewhere among them, if there is one.
def commandLine (before : List Choice) (file : Option String) (after : List Choice) : List String :=
  before.map Choice.text ++ file.toList ++ after.map Choice.text

theorem FirstRecurs.append (h : FirstRecurs before c) (after : List Choice) :
    FirstRecurs (before ++ after) c := by
  obtain ⟨bs, cs, rfl, hclean, hstands⟩ := h
  exact ⟨bs, cs ++ after, by simp, hclean, hstands⟩

theorem all_commandLine (before after : List Choice) {file : Option String}
    (hfile : ∀ name ∈ file, name.toList.head? ≠ some '-') :
    (Clean (before ++ after) ∧ ∃ s : Scan, s.given.Holds (before ++ after) ∧ s.given.file = file ∧
      Scan.all {} (commandLine before file after) = .ok s) ∨
    ∃ c, FirstRecurs (before ++ after) c ∧
      Scan.all {} (commandLine before file after) =
        .error (.error (.repeated (.switch c.switch))) := by
  rw [commandLine, List.append_assoc]
  obtain ⟨hbefore, s, hmet, hall⟩ | ⟨c, hc, hall⟩ :=
    Scan.met_start.all_text clean_nil before (file.toList ++ after.map Choice.text)
  case inr => exact .inr ⟨c, hc.append after, hall⟩
  case inl =>
    obtain ⟨s', hmet', hfile⟩ := hmet.all_file hfile (after.map Choice.text)
    obtain ⟨hclean, s'', hmet'', hafter⟩ | ⟨c, hc, hafter⟩ := hmet'.all_text hbefore after []
    case inr =>
      rw [List.append_nil] at hafter
      exact .inr ⟨c, hc, by rw [hall, hfile, hafter]⟩
    case inl =>
      obtain ⟨t, hsettle, hmet, -, hsame⟩ := hmet''.settle
      rw [List.append_nil, Scan.all, hsettle] at hafter
      exact .inl ⟨hclean, t, hmet.holds, hsame, by rw [hall, hfile, hafter]⟩

end CommandLine

end Imp
