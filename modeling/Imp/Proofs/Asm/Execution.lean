import Imp.Proofs.Asm.Reading
import Imp.Proofs.Asm.Steps

/-!
The machine does with the text of code what it does with the code: the two machines take the same
steps, from states that are written alike.
-/

open Relation StateTransition

namespace Imp

namespace Asm

section Square

variable {σ τ : Type} {f : σ → Option σ} {g : τ → Option τ} {w : σ → τ} {s t : σ} {u : τ}
  (h : ∀ s, g (w s) = (f s).map w)

include h

theorem respects_of_map : Respects f g fun s t => w s = t := by
  rw [fun_respects]
  intro s
  have hs := h s
  cases hf : f s with
  | none => simpa [FRespects, hf] using hs
  | some t => exact .single (by simp [hs, hf])

theorem reaches_map (hst : Reaches f s t) : Reaches g (w s) (w t) := by
  obtain ⟨_, rfl, hreach⟩ := tr_reaches (respects_of_map h) rfl hst
  exact hreach

theorem exists_of_reaches_map (hsu : Reaches g (w s) u) : ∃ t, Reaches f s t ∧ w t = u := by
  induction hsu with
  | refl => exact ⟨s, .refl, rfl⟩
  | @tail u v _ hstep ih =>
    obtain ⟨t, hreach, rfl⟩ := ih
    obtain ⟨t', ht', rfl⟩ := Option.map_eq_some_iff.mp ((h t).symm.trans hstep)
    exact ⟨t', hreach.tail ht', rfl⟩

theorem mem_eval_map (hst : t ∈ eval f s) : w t ∈ eval g (w s) := by
  obtain ⟨_, rfl, hmem⟩ := tr_eval (respects_of_map h) rfl hst
  exact hmem

end Square

-- The register of a name.
def Register.named? (w : String) : Option Register :=
  [Register.a, .b, .c].find? (·.text = w)

-- The variable whose cell goes by a name.
def cellNamed? (w : String) : Option String :=
  if "var_".toList <+: w.toList then some (String.ofList (w.toList.drop 4)) else none

@[simp]
theorem cellNamed?_cellName (x : String) : cellNamed? (cellName x) = some x := by
  simp [cellNamed?, cellName]

theorem cellNamed?_eq_some_iff {w x : String} : cellNamed? w = some x ↔ w = cellName x := by
  constructor
  case mp =>
    intro h
    simp only [cellNamed?] at h
    split at h
    case isTrue hprefix =>
      obtain ⟨cs, hcs⟩ := hprefix
      cases h
      rw [← String.toList_inj, ← hcs]
      simp [cellName]
    case isFalse => cases h
  case mpr => exact fun h => h ▸ cellNamed?_cellName x

@[simp]
theorem Register.named?_text (r : Register) : named? r.text = some r := by
  cases r <;> decide

theorem Register.named?_eq_some_iff {w : String} {r : Register} :
    named? w = some r ↔ w = r.text := by
  constructor
  case mp =>
    intro h
    have hr := List.find?_some (p := fun r : Register => r.text = w) h
    exact (of_decide_eq_true hr).symm
  case mpr => exact fun h => h ▸ r.named?_text

theorem bracketed?_cell (x : String) :
    Script.bracketed? (Operand.cell x).text = some (cellName x) := by
  have htext : (Operand.cell x).text.toList = '[' :: ((cellName x).toList ++ [']']) := by
    simp [Operand.text]
  simp only [Script.bracketed?, htext, List.getLast?_concat, if_true, List.dropLast_concat,
    String.ofList_toList]

theorem bracketed?_register (r : Register) : Script.bracketed? r.text = none := by
  cases r <;> decide

theorem integer?_register (r : Register) : integer? r.text.toList = none := by
  cases r <;> decide

theorem signed_toDigits (n : Nat) : signed (Nat.toDigits 10 n) = (1, Nat.toDigits 10 n) := by
  unfold signed
  split
  case h_1 ds hds => nomatch isDigit_of_mem_toDigits '-' (hds ▸ List.mem_cons_self)
  case h_2 ds hds => nomatch isDigit_of_mem_toDigits '+' (hds ▸ List.mem_cons_self)
  case h_3 => rfl

theorem integer?_const (v : Int32) : integer? (Operand.const v).text.toList = some v.toInt := by
  have htext : (Operand.const v).text.toList = (toString v.toInt).toList := rfl
  have hlow : -9223372036854775808 ≤ v.toInt := by have := v.le_toInt; omega
  have hhigh : v.toInt < 9223372036854775808 := by have := v.toInt_lt; omega
  have hdigits : ∀ n, Nat.toDigits 10 n ≠ [] ∧ (Nat.toDigits 10 n).all Char.isDigit := fun n =>
    ⟨Nat.toDigits_ne_nil, List.all_eq_true.mpr isDigit_of_mem_toDigits⟩
  obtain ⟨n, hn, hchars⟩ | ⟨n, hn, hchars⟩ := toString_int_cases v.toInt
  case inl =>
    simp only [integer?, htext, hchars, signed_toDigits, Nat.ofDigitChars_ten_toDigits,
      Int.one_mul, ← hn]
    exact if_pos ⟨(hdigits n).1, (hdigits n).2, hlow, hhigh⟩
  case inr =>
    simp only [integer?, htext, hchars, signed, Nat.ofDigitChars_ten_toDigits, Int.neg_mul,
      Int.one_mul, ← hn]
    exact if_pos ⟨(hdigits n).1, (hdigits n).2, hlow, hhigh⟩

theorem bracketed?_const (v : Int32) : Script.bracketed? (Operand.const v).text = none := by
  have htext : (Operand.const v).text.toList = (toString v.toInt).toList := rfl
  unfold Script.bracketed?
  rw [htext]
  split
  case h_1 cs hcs =>
    obtain ⟨n, -, hchars⟩ | ⟨n, -, hchars⟩ := toString_int_cases v.toInt
    case inl => nomatch isDigit_of_mem_toDigits '[' (hchars.symm.trans hcs ▸ List.mem_cons_self)
    case inr => nomatch hchars.symm.trans hcs
  case h_2 => rfl

namespace State

variable {α : Type} [Word α] {code : Code}

-- The state as that of a machine that knows registers and cells by the names in the text.
def written (s : State α) : Script.State α where
  registers w := ((Register.named? w).map s.registers).getD (Word.ofInt 0)
  stack := s.stack
  memory w := (cellNamed? w).bind s.cells
  flags := s.flags
  pc := s.pc

@[simp]
theorem written_registers (s : State α) (r : Register) :
    s.written.registers r.text = s.registers r := by
  simp [written]

@[simp]
theorem written_memory (s : State α) (x : String) : s.written.memory (cellName x) = s.cells x := by
  simp [written]

theorem exists_of_written_memory {s : State α} {w : String} {v : α}
    (h : s.written.memory w = some v) : ∃ x, w = cellName x ∧ s.cells x = some v := by
  obtain ⟨x, hx, hv⟩ := Option.bind_eq_some_iff.mp h
  exact ⟨x, cellNamed?_eq_some_iff.mp hx, hv⟩

theorem written_read? (s : State α) (o : Operand) : s.written.read? o.text = s.read? o := by
  cases o with
  | const v => simp [Script.State.read?, read?, bracketed?_const, integer?_const]
  | cell x => simp [Script.State.read?, read?, bracketed?_cell]
  | register r =>
    have htext : (Operand.register r).text = r.text := rfl
    simp [Script.State.read?, read?, htext, bracketed?_register, integer?_register]

theorem written_put (s : State α) (r : Register) (v : α) :
    s.written.write? r.text v = some (s.put r v).written := by
  have hregisters : (fun w => if w = r.text then v else s.written.registers w) =
      (s.put r v).written.registers := by
    funext w
    cases hw : Register.named? w with
    | none =>
      have hne : w ≠ r.text := fun h => by simp [Register.named?_eq_some_iff.mpr h] at hw
      simp [written, hw, hne]
    | some q =>
      obtain rfl := Register.named?_eq_some_iff.mp hw
      have hq : q.text = r.text ↔ q = r := by
        rw [← Register.named?_eq_some_iff, Register.named?_text, Option.some.injEq]
      simp [written, put, hq]
  rw [Script.State.write?, bracketed?_register]
  dsimp only
  rw [hregisters]
  rfl

theorem written_memory_of_cells {s t : State α} {x : String} {v : α}
    (h : t.cells = fun y => if y = x then some v else s.cells y) :
    t.written.memory = fun w => if w = cellName x then some v else s.written.memory w := by
  funext w
  cases hw : cellNamed? w with
  | none =>
    have hne : w ≠ cellName x := fun h => by simp [cellNamed?_eq_some_iff.mpr h] at hw
    simp [written, hw, hne]
  | some y =>
    obtain rfl := cellNamed?_eq_some_iff.mp hw
    simp [written, h, cellName_injective.eq_iff]

theorem written_store (s : State α) (x : String) (v : α) :
    s.written.write? (Operand.cell x).text v = (s.cells x).map fun _ =>
      { s with cells := fun y => if y = x then some v else s.cells y : State α }.written := by
  have hmemory := written_memory_of_cells (s := s) (v := v) (x := x)
    (t := { s with cells := fun y => if y = x then some v else s.cells y }) rfl
  rw [Script.State.write?, bracketed?_cell]
  dsimp only
  rw [← hmemory, written_memory]
  rfl

end State

namespace Code

variable {code : Code} {l : Label} {x w : String} {i j : Nat}

-- A name is given by one line only.
theorem index_unique (hn : code.defined.Nodup) (hi : code[i]?.bind Line.defined? = some w)
    (hj : code[j]?.bind Line.defined? = some w) : i = j := by
  obtain ⟨l, hl, hlw⟩ := Option.bind_eq_some_iff.mp hi
  obtain ⟨l', hl', hlw'⟩ := Option.bind_eq_some_iff.mp hj
  obtain ⟨hilt, rfl⟩ := List.getElem?_eq_some_iff.mp hl
  obtain ⟨hjlt, rfl⟩ := List.getElem?_eq_some_iff.mp hl'
  have hpairs := List.pairwise_iff_getElem.mp (List.pairwise_filterMap.mp hn)
  rcases Nat.lt_trichotomy i j with hlt | heq | hlt
  case inl => exact absurd rfl (hpairs i j hilt hjlt hlt w hlw w hlw')
  case inr.inl => exact heq
  case inr.inr => exact absurd rfl (hpairs j i hjlt hilt hlt w hlw' w hlw)

theorem definition_eq_label_iff {l : Line} : l.definition = some (.label w) ↔
    ∃ l', l = .label l' ∧ l'.text = w := by
  cases l <;> simp [Line.definition]

theorem value?_definition_iff {l : Line} {v : Int} :
    l.definition.bind (Definition.value? w) = some v ↔
      ∃ x, l = .cell x ∧ w = cellName x ∧ v = 0 := by
  cases l <;> simp [Line.definition, Definition.value?, eq_comm]

-- What all entries agree on that say anything is found if one of them does.
theorem findSome?_eq_some {β γ : Type} {f : β → Option γ} {xs : List β} {x : β} {v : γ}
    (hx : x ∈ xs) (hv : f x = some v) (h : ∀ y ∈ xs, ∀ u, f y = some u → u = v) :
    xs.findSome? f = some v := by
  cases hfind : xs.findSome? f with
  | none =>
    rw [List.findSome?_eq_none_iff.mp hfind x hx] at hv
    nomatch hv
  | some u =>
    obtain ⟨y, hy, hu⟩ := List.exists_of_findSome?_eq_some hfind
    rw [h y hy u hu]

-- The last line of a label is its first one.
theorem target?_script (hn : code.defined.Nodup) (hl : .label l ∈ code) :
    code.script.target? l.text = code.target? l := by
  obtain ⟨pc, hpc⟩ : ∃ pc, code.target? l = some pc := by
    refine Option.ne_none_iff_exists'.mp fun hnone => ?_
    have hne := List.findIdx?_eq_none_iff.mp hnone _ hl
    simp at hne
  have hline := label_of_target? hpc
  have hdefined : code[pc]?.bind Line.defined? = some l.text := by
    rw [hline]
    rfl
  rw [hpc]
  refine findSome?_eq_some (x := (some (.label l.text), pc)) ?_ (if_pos rfl) ?_
  case refine_1 => simp [script, List.mem_zipIdx_iff_getElem?, hline, Line.definition]
  case refine_2 =>
    rintro ⟨d, i⟩ hmem n hn'
    obtain ⟨rfl, hi⟩ := Option.ite_none_right_eq_some.mp hn'
    cases hi
    rw [List.mem_reverse, List.mem_zipIdx_iff_getElem?, script, List.getElem?_map,
      Option.map_eq_some_iff] at hmem
    obtain ⟨line, hline', hdefinition⟩ := hmem
    obtain ⟨l', rfl, htext⟩ := definition_eq_label_iff.mp hdefinition
    refine index_unique hn ?_ hdefined
    rw [hline', ← htext]
    rfl

-- All cells are zero at the start.
theorem value?_script (w : String) : code.script.value? w =
    (cellNamed? w).bind fun x => if .cell x ∈ code then some 0 else none := by
  cases hvalue : code.script.value? w with
  | some v =>
    obtain ⟨d, hd, hv⟩ := List.exists_of_findSome?_eq_some hvalue
    obtain ⟨l, hl, rfl⟩ := List.mem_map.mp (List.mem_reverse.mp hd)
    obtain ⟨x, rfl, rfl, rfl⟩ := value?_definition_iff.mp hv
    simp [hl]
  | none =>
    have hnone := List.findSome?_eq_none_iff.mp hvalue
    refine (Option.bind_eq_none_iff.mpr fun x hx => if_neg fun hmem => ?_).symm
    have hd := hnone _ (List.mem_reverse.mpr (List.mem_map_of_mem hmem))
    rw [value?_definition_iff.mpr ⟨x, rfl, cellNamed?_eq_some_iff.mp hx, rfl⟩] at hd
    nomatch hd

end Code

namespace State

variable {α : Type} [Word α] {code : Code}

theorem written_start (code : Code) :
    (Script.State.start code.script : Script.State α) = (State.start code).written := by
  have hmemory : (Script.State.start code.script : Script.State α).memory =
      (State.start code).written.memory := by
    funext w
    simp only [Script.State.start, Code.value?_script, written, start]
    cases cellNamed? w with
    | none => rfl
    | some x =>
      simp only [Option.bind_some]
      split <;> rfl
  have hregisters : (Script.State.start code.script : Script.State α).registers =
      (State.start code).written.registers := by
    funext w
    simp only [Script.State.start, written, start]
    cases Register.named? w <;> rfl
  simp only [Script.State.start, written, Script.State.mk.injEq] at hmemory hregisters ⊢
  exact ⟨hregisters, rfl, hmemory, rfl, rfl⟩

theorem order_written (s : State α) :
    code.script.orders[s.written.pc]? = code[s.pc]?.map Line.order :=
  List.getElem?_map

theorem Halted.written {s : State α} (h : s.Halted code) : s.written.Halted code.script :=
  ⟨[], by rw [order_written, h]; rfl⟩

variable [DecidableEq α]

theorem written_exec? {i : Instr} (s : State α)
    (hjump : ∀ j l, i = .jump j l → code.script.target? l.text = code.target? l) :
    s.written.exec? code.script i.mnemonic i.operands = (s.exec? code i).map written := by
  have hregister : ∀ r, s.written.read? r.text = some (s.registers r) := fun r =>
    s.written_read? (.register r)
  cases i with
  | load r o =>
    rw [Instr.mnemonic, Instr.operands, Script.State.exec?, written_read?, exec?]
    cases s.read? o with
    | none => rfl
    | some v => exact s.written_put r v
  | store x r =>
    rw [Instr.mnemonic, Instr.operands, Script.State.exec?, hregister, exec?]
    refine (s.written_store x _).trans ?_
    cases s.cells x <;> rfl
  | push r =>
    rw [Instr.mnemonic, Instr.operands, Script.State.exec?, hregister]
    rfl
  | pop r =>
    rw [Instr.mnemonic, Instr.operands, Script.State.exec?, exec?]
    cases hstack : s.stack with
    | nil => simp [written, hstack]
    | cons v stack =>
      simp only [written, hstack]
      exact written_put { s with stack := stack } r v
  | add r q | sub r q =>
    rw [Instr.mnemonic, Instr.operands, Script.State.exec?, hregister, hregister]
    exact s.written_put r _
  | mul r =>
    have ha : s.written.read? "A" = some (s.registers .a) := hregister .a
    rw [Instr.mnemonic, Instr.operands, Script.State.exec?, ha, hregister]
    exact s.written_put .a _
  | dec r =>
    rw [Instr.mnemonic, Instr.operands, Script.State.exec?, hregister]
    exact s.written_put r _
  | cmp r o =>
    rw [Instr.mnemonic, Instr.operands, Script.State.exec?, hregister, written_read?, exec?]
    cases s.read? o <;> rfl
  | jump j l =>
    rw [Instr.mnemonic, Instr.operands, Script.State.exec?, exec?]
    have hflags : s.written.flags = s.flags := rfl
    rw [hflags]
    split
    case isTrue =>
      simp only [List.head?_cons, Option.bind_eq_bind, Option.bind_some, hjump j l rfl]
      cases code.target? l <;> rfl
    case isFalse => rfl
  | halt => rfl

section Steps

variable (hjump : ∀ j l, .instr (.jump j l) ∈ code → code.script.target? l.text = code.target? l)
  (s : State α)

include hjump

theorem written_step? : s.written.step? code.script = (s.step? code).map written := by
  rw [Script.State.step?, order_written, step?]
  cases hline : code[s.pc]? with
  | none => rfl
  | some l =>
    cases l with
    | instr i =>
      exact s.next.written_exec? fun j l hi => hjump j l (hi ▸ List.mem_of_getElem? hline)
    | label | cell | note | blank => rfl

theorem written_stepWithin? (first length : Nat) : s.written.stepWithin? code.script first length =
    (s.stepWithin? code first length).map written := by
  have hpc : s.written.pc = s.pc := rfl
  rw [Script.State.stepWithin?, stepWithin?, hpc]
  split
  case isTrue => exact written_step? hjump s
  case isFalse => rfl

end Steps

end State

end Asm

open Asm

namespace Program

variable {p : Program} {n : Nat} {c : Code}

-- The text of a program is read as its code.
theorem read?_whole (h : p.asm 0 = .ok (c, n)) (hn : ∀ x ∈ p.mentions, Unbroken x) :
    Script.read? (Code.whole (p.names .declarationsAndAssignments) c).text =
      some (Code.whole (p.names .declarationsAndAssignments) c).script :=
  Script.read?_text (unbroken_whole h hn)

section Runs

variable {α : Type} [Word α] [DecidableEq α] {names : List String} {s t : State α}
  {u : Script.State α} {first length : Nat} (h : p.asm 0 = .ok (c, n)) (hnames : names.Nodup)

include h hnames

theorem target?_whole (j : Jump) (l : Label) (hj : .instr (.jump j l) ∈ Code.whole names c) :
    (Code.whole names c).script.target? l.text = (Code.whole names c).target? l :=
  Code.target?_script (nodup_defined_whole h hnames) (label_mem_whole_of_jump h hj)

theorem reaches_script
    (hreach : Reaches (State.step? (.whole names c)) (State.start (.whole names c)) t) :
    Reaches (Script.State.step? (Code.whole names c).script)
      (Script.State.start (Code.whole names c).script) t.written := by
  rw [State.written_start]
  exact reaches_map (State.written_step? (target?_whole h hnames)) hreach

-- The machine on the text is nowhere that it is not on the code.
theorem exists_of_reaches_script
    (hreach : Reaches (Script.State.step? (Code.whole names c).script)
      (Script.State.start (Code.whole names c).script) u) :
    ∃ t, Reaches (State.step? (.whole names c)) (State.start (.whole names c)) t ∧
      t.written = u := by
  rw [State.written_start] at hreach
  exact exists_of_reaches_map (State.written_step? (target?_whole h hnames)) hreach

theorem step?_script : s.written.step? (Code.whole names c).script =
    (s.step? (.whole names c)).map State.written :=
  State.written_step? (target?_whole h hnames) s

theorem mem_eval_script (ht : t ∈ eval (State.stepWithin? (.whole names c) first length) s) :
    t.written ∈ eval (Script.State.stepWithin? (Code.whole names c).script first length)
      s.written :=
  mem_eval_map (fun s => State.written_stepWithin? (target?_whole h hnames) s first length) ht

end Runs

end Program

end Imp
