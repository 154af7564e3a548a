import Imp.Proofs.Asm.Labels
import Imp.Proofs.Asm.Script
import Mathlib.Data.List.TakeWhile

/-!
How the machine reads assembly: each line as it was meant, if no name in it breaks a line apart.
-/

namespace Imp

namespace Asm

open StepLimit

-- The characters that end an operand, a label or a line.
def breaks : List Char :=
  [',', ':', '\n']

-- A name that can stand in a line. All names of the lexer can.
def Unbroken (x : String) : Prop :=
  ∀ c ∈ x.toList, c ∉ breaks

instance {x : String} : Decidable (Unbroken x) :=
  List.decidableBAll (· ∉ breaks) x.toList

@[simp]
theorem unbroken_append {x y : String} : Unbroken (x ++ y) ↔ Unbroken x ∧ Unbroken y := by
  simp only [Unbroken, String.toList_append, List.forall_mem_append]

theorem not_mem_breaks_of_isDigit {c : Char} (h : c.isDigit) : c ∉ breaks := by
  intro hbreak
  simp only [breaks, List.mem_cons, List.not_mem_nil, or_false] at hbreak
  obtain rfl | rfl | rfl := hbreak <;> nomatch h

theorem unbroken_toString (n : Nat) : Unbroken (toString n) :=
  fun c hc => not_mem_breaks_of_isDigit (isDigit_of_mem_toDigits c (by simpa using hc))

-- What is taken for an operand of an instruction as it stands.
structure IsOperand (w : String) : Prop where
  ne_nil : w.toList ≠ []
  unbroken : Unbroken w
  trimmed : Trimmed w.toList

theorem IsOperand.of_forall {w : String} (hne : w.toList ≠ [])
    (h : ∀ c ∈ w.toList, c ∉ breaks ∧ ¬isWhiteSpace c) : IsOperand w where
  ne_nil := hne
  unbroken c hc := (h c hc).1
  trimmed := .of_not_mem fun c hc => (h c hc).2

def Label.names : Label → List String
  | start | loopStart _ | loopEnd _ => []
  | decremented x _ => [x]

def Operand.names : Operand → List String
  | cell x => [x]
  | const _ | register _ => []

def Instr.names : Instr → List String
  | load _ o | cmp _ o => o.names
  | store x _ => [x]
  | jump _ l => l.names
  | push _ | pop _ | add .. | sub .. | mul _ | dec _ | halt => []

-- The names in a line.
def Line.names : Line → List String
  | instr i => i.names
  | label l => l.names
  | cell x | note x => [x]
  | blank => []

def Instr.mnemonic : Instr → Mnemonic
  | load .. | store .. => .mov
  | push _ => .push
  | pop _ => .pop
  | add .. => .add
  | sub .. => .sub
  | mul _ => .mul
  | dec _ => .dec
  | cmp .. => .cmp
  | jump j _ => .jump j
  | halt => .hlt

def Instr.operands : Instr → List String
  | load r o | cmp r o => [r.text, o.text]
  | store x r => [(Operand.cell x).text, r.text]
  | push r | pop r | mul r | dec r => [r.text]
  | add r s | sub r s => [r.text, s.text]
  | jump _ l => [l.text]
  | halt => []

def Line.order : Line → Order
  | instr i => .run i.mnemonic i.operands
  | label _ | cell _ | note _ | blank => .pass

def Line.definition : Line → Option Definition
  | label l => some (.label l.text)
  | cell x => some (.cell (cellName x) 0)
  | instr _ | note _ | blank => none

namespace Code

def names (code : Code) : List String :=
  code.flatMap Line.names

-- What code is to the machine that runs its text.
def script (code : Code) : Script where
  orders := code.map Line.order
  definitions := code.map Line.definition

end Code

section Operands

theorem Register.isOperand (r : Register) : IsOperand r.text := by
  cases r <;> exact ⟨by decide, by decide, by decide⟩

theorem Label.isOperand {l : Label} (h : ∀ x ∈ l.names, Unbroken x) : IsOperand l.text where
  ne_nil hnil := by
    have hhead := l.head?_text
    simp [hnil] at hhead
  unbroken := by
    cases l with
    | start => decide
    | loopStart n | loopEnd n =>
      simp only [text, unbroken_append, unbroken_toString, and_true]
      decide
    | decremented x n =>
      have hx := h x List.mem_cons_self
      simp only [text, unbroken_append, unbroken_toString, hx, and_true]
      decide
  trimmed := by
    constructor
    case head =>
      rw [head?_text]
      rintro _ ⟨⟩
      cases l <;> simp only [initial] <;> decide
    case last =>
      by_cases hl : l = start
      case pos =>
        have htrimmed : Trimmed start.text.toList := by decide
        exact hl ▸ htrimmed.last
      case neg =>
        obtain ⟨u, hu⟩ := exists_toList_text hl
        obtain ⟨ds, c, hds⟩ := List.eq_nil_or_concat (Nat.toDigits 10 l.number) |>.resolve_left
          Nat.toDigits_ne_nil
        have hc : c ∈ Nat.toDigits 10 l.number := by simp [hds]
        rw [hu, hds, List.concat_eq_append, ← List.cons_append, ← List.append_assoc,
          List.getLast?_concat]
        rintro _ ⟨⟩
        exact not_isWhiteSpace_of_isDigit (isDigit_of_mem_toDigits c hc)

theorem Operand.isOperand {o : Operand} (h : ∀ x ∈ o.names, Unbroken x) : IsOperand o.text := by
  cases o with
  | register r => exact r.isOperand
  | cell x =>
    have hx := h x List.mem_cons_self
    have htext : (Operand.cell x).text.toList = '[' :: (cellName x).toList ++ [']'] := by
      simp [text]
    refine ⟨by simp [htext], ?_, ?_, ?_⟩
    case refine_1 =>
      simp only [text, cellName, unbroken_append, hx, and_true]
      decide
    case refine_2 => simp +decide [htext]
    case refine_3 =>
      rw [htext, List.getLast?_concat]
      rintro _ ⟨⟩
      decide
  | const v =>
    have hchars : (toString v.toInt).toList ≠ [] ∧
        ∀ c ∈ (toString v.toInt).toList, c = '-' ∨ c.isDigit := by
      obtain ⟨n, -, -, hn⟩ | ⟨n, -, -, hn⟩ := toString_toInt_cases v <;> rw [hn]
      case inl => exact ⟨Nat.toDigits_ne_nil, fun c hc => .inr (isDigit_of_mem_toDigits c hc)⟩
      case inr =>
        refine ⟨List.cons_ne_nil _ _, List.forall_mem_cons.mpr ⟨.inl rfl, fun c hc => ?_⟩⟩
        exact .inr (isDigit_of_mem_toDigits c hc)
    refine .of_forall hchars.1 fun c hc => ?_
    obtain rfl | hdigit := hchars.2 c hc
    case inl => exact ⟨by decide, by decide⟩
    case inr => exact ⟨not_mem_breaks_of_isDigit hdigit, not_isWhiteSpace_of_isDigit hdigit⟩

end Operands

section Cuts

variable {c : Char} {w line : List Char} {ops : List String}

theorem cut?_append (h : c ∉ w) (rest : List Char) : cut? c (w ++ c :: rest) = some (w, rest) := by
  have hw : ∀ d ∈ w, decide (d ≠ c) := fun d hd => decide_eq_true fun heq => h (heq ▸ hd)
  have hrest : ∀ d ∈ (c :: rest).head?, ¬decide (d ≠ c) := by simp
  have ⟨htake, hdrop⟩ := takeWhile_append_eq hw hrest
  rw [cut?, htake, hdrop]

theorem cut?_of_not_mem (h : c ∉ w) : cut? c w = none := by
  have hw : ∀ d ∈ w, decide (d ≠ c) := fun d hd => decide_eq_true fun heq => h (heq ▸ hd)
  rw [cut?, List.dropWhile_eq_nil_iff.mpr hw]

theorem operandList_cons (hw : ',' ∉ w) (rest : List Char) : operandList (w ++ ',' :: rest) =
    operandList w ++ operandList rest := by
  simp only [operandList, List.splitOn_append_cons_self_of_not_mem hw,
    List.splitOn_eq_singleton hw, List.map_cons, List.map_nil, List.filter_cons, List.filter_nil]
  split <;> simp

theorem IsOperand.operandList_eq {o : String} (h : IsOperand o)
    (hbefore : ∀ c ∈ w, isWhiteSpace c) (hcomma : ',' ∉ w) :
    operandList (w ++ o.toList) = [o] := by
  have hsplit : ',' ∉ w ++ o.toList := by
    rw [List.mem_append, not_or]
    exact ⟨hcomma, fun hc => h.unbroken _ hc List.mem_cons_self⟩
  have hbehind : ∀ c ∈ ([] : List Char), isWhiteSpace c := nofun
  have htrim := h.trimmed.trim_append h.ne_nil hbefore hbehind
  rw [List.append_nil] at htrim
  have hne : o.toList.isEmpty = false := List.isEmpty_eq_false_iff.mpr h.ne_nil
  simp [operandList, List.splitOn_eq_singleton hsplit, htrim, hne]

-- Operands with commas between them, perhaps behind a blank.
theorem operandList_intercalate (hops : ∀ o ∈ ops, IsOperand o) (hne : ops ≠ [])
    (hw : ∀ c ∈ w, c = ' ') : operandList (w ++ (", ".intercalate ops).toList) = ops := by
  have hcomma : ',' ∉ w := fun h => absurd (hw _ h) (by decide)
  have hblank : ∀ c ∈ w, isWhiteSpace c := fun c hc => hw c hc ▸ by decide
  induction ops generalizing w with
  | nil => exact absurd rfl hne
  | cons o ops ih =>
    have ⟨ho, hops⟩ := List.forall_mem_cons.mp hops
    cases ops with
    | nil => simpa using ho.operandList_eq hblank hcomma
    | cons o' ops =>
      have hsplit : ',' ∉ w ++ o.toList := by
        rw [List.mem_append, not_or]
        exact ⟨hcomma, fun hc => ho.unbroken _ hc List.mem_cons_self⟩
      have htext : w ++ (", ".intercalate (o :: o' :: ops)).toList =
          (w ++ o.toList) ++ ',' :: ([' '] ++ (", ".intercalate (o' :: ops)).toList) := by
        simp [String.intercalate_cons_cons]
      rw [htext, operandList_cons hsplit, ho.operandList_eq hblank hcomma,
        ih hops (List.cons_ne_nil _ _) (by simp) (by simp)
          (List.forall_mem_singleton.mpr (by decide))]
      rfl

end Cuts

-- The text of an instruction: its word, and its operands behind a space.
def spelled (m : Mnemonic) (ops : List String) : List Char :=
  m.text.toList ++ if ops = [] then [] else ' ' :: (", ".intercalate ops).toList

theorem Instr.toList_text (i : Instr) : i.text.toList = spelled i.mnemonic i.operands := by
  cases i <;> simp [text, mnemonic, operands, spelled, Mnemonic.text, Operand.text,
    String.intercalate_cons_cons]

theorem cut?_spelled {m : Mnemonic} {ops : List String} (h : ' ' ∉ m.text.toList) :
    (cut? ' ' (spelled m ops)).getD (spelled m ops, []) =
      (m.text.toList, (", ".intercalate ops).toList) := by
  rw [spelled]
  split
  case isTrue hnil =>
    rw [List.append_nil, cut?_of_not_mem h, hnil]
    rfl
  case isFalse =>
    rw [cut?_append h]
    rfl

namespace Mnemonic

theorem read?_text (m : Mnemonic) : read? m.text.toList = some m := by
  cases m with
  | jump j => cases j <;> decide
  | _ => decide

theorem ne_nil (m : Mnemonic) : m.text.toList ≠ [] := by
  cases m with
  | jump j => cases j <;> decide
  | _ => decide

theorem isUpper_of_mem (m : Mnemonic) : ∀ c ∈ m.text.toList, c.isUpper := by
  refine List.all_eq_true.mp ?_
  cases m with
  | jump j => cases j <;> decide
  | _ => decide

theorem not_isWhiteSpace_of_mem (m : Mnemonic) : ∀ c ∈ m.text.toList, ¬isWhiteSpace c := by
  have hall : m.text.toList.all (!isWhiteSpace ·) := by
    cases m with
    | jump j => cases j <;> decide
    | _ => decide
  simpa using hall

theorem not_mem_text {m : Mnemonic} {c : Char} (hc : c.isUpper = false) : c ∉ m.text.toList :=
  fun h => nomatch hc.symm.trans (m.isUpper_of_mem c h)

end Mnemonic

theorem not_mem_intercalate {ops : List String} {c : Char} (hsep : c ∉ ", ".toList)
    (hops : ∀ o ∈ ops, c ∉ o.toList) : c ∉ (", ".intercalate ops).toList := by
  induction ops with
  | nil => simp
  | cons o ops ih =>
    have ⟨ho, hops⟩ := List.forall_mem_cons.mp hops
    cases ops with
    | nil => simpa using ho
    | cons o' ops =>
      rw [String.intercalate_cons_cons, String.toList_append, String.toList_append]
      simp only [List.mem_append, not_or]
      exact ⟨⟨ho, hsep⟩, ih hops⟩

-- Operands with commas between them end as the last one does.
theorem exists_getLast?_intercalate {ops : List String} (hops : ∀ o ∈ ops, IsOperand o)
    (hne : ops ≠ []) :
    ∃ c, (", ".intercalate ops).toList.getLast? = some c ∧ ¬isWhiteSpace c := by
  induction ops with
  | nil => exact absurd rfl hne
  | cons o ops ih =>
    have ⟨ho, hops⟩ := List.forall_mem_cons.mp hops
    cases ops with
    | nil =>
      obtain ⟨c, hc⟩ := Option.ne_none_iff_exists'.mp (List.getLast?_eq_none_iff.not.mpr ho.ne_nil)
      exact ⟨c, by simpa using hc, ho.trimmed.last c hc⟩
    | cons o' ops =>
      obtain ⟨c, hc, hblank⟩ := ih hops (List.cons_ne_nil _ _)
      refine ⟨c, ?_, hblank⟩
      rw [String.intercalate_cons_cons, String.toList_append, List.getLast?_append, hc]
      rfl

section Instructions

variable {m : Mnemonic} {ops : List String} (hops : ∀ o ∈ ops, IsOperand o)

include hops

theorem not_mem_spelled {c : Char} (hbreak : c ∈ breaks) (hcomma : c ≠ ',') :
    c ∉ spelled m ops := by
  have hc : c.isUpper = false ∧ c ∉ ' ' :: ", ".toList := by
    simp only [breaks, List.mem_cons, List.not_mem_nil, or_false] at hbreak
    obtain rfl | rfl | rfl := hbreak
    case inl => exact absurd rfl hcomma
    all_goals decide
  rw [spelled, List.mem_append, not_or]
  refine ⟨Mnemonic.not_mem_text hc.1, ?_⟩
  split
  case isTrue => exact List.not_mem_nil
  case isFalse =>
    rw [List.mem_cons, not_or] at hc ⊢
    exact ⟨hc.2.1, not_mem_intercalate hc.2.2 fun o ho hmem => (hops o ho).unbroken c hmem hbreak⟩

theorem trimmed_spelled : Trimmed (spelled m ops) := by
  obtain ⟨c, w, hw⟩ := List.exists_cons_of_ne_nil m.ne_nil
  constructor
  case head =>
    rw [spelled, hw]
    rintro _ ⟨⟩
    exact m.not_isWhiteSpace_of_mem c (hw ▸ List.mem_cons_self)
  case last =>
    rw [spelled]
    split
    case isTrue =>
      rw [List.append_nil]
      exact fun c hc => m.not_isWhiteSpace_of_mem c (List.mem_of_getLast? hc)
    case isFalse hne =>
      obtain ⟨c, hc, hblank⟩ := exists_getLast?_intercalate hops hne
      rw [List.getLast?_append, List.getLast?_cons, hc]
      rintro _ ⟨⟩
      exact hblank

theorem definition?_spelled : definition? (spelled m ops) = some none := by
  have hcolon : ':' ∉ spelled m ops := not_mem_spelled hops (by decide) (by decide)
  rw [definition?, cut?_of_not_mem hcolon]
  split <;> rfl

theorem order_spelled : order (spelled m ops) = .run m ops := by
  obtain ⟨c, w, hw⟩ := List.exists_cons_of_ne_nil m.ne_nil
  have hcolon : ':' ∉ spelled m ops := not_mem_spelled hops (by decide) (by decide)
  have hupper : c.isUpper := m.isUpper_of_mem c (hw ▸ List.mem_cons_self)
  have hnote : c ≠ ';' := by
    rintro rfl
    nomatch hupper
  have hspace : ' ' ∉ m.text.toList := Mnemonic.not_mem_text (by decide)
  have hpass : ¬((spelled m ops).isEmpty ∨ (spelled m ops).head? = some ';' ∨
      (spelled m ops).getLast? = some ':' ∨ ": DB".toList <:+: spelled m ops) := by
    rintro (h | h | h | h)
    case inl => simp [spelled, hw] at h
    case inr.inl => simp [spelled, hw, hnote] at h
    case inr.inr.inl => exact hcolon (List.mem_of_getLast? h)
    case inr.inr.inr => exact hcolon (h.subset (by decide))
  have hoperands : operandList (", ".intercalate ops).toList = ops := by
    by_cases hne : ops = []
    case pos =>
      subst hne
      rfl
    case neg => simpa using operandList_intercalate hops hne (w := []) nofun
  rw [order, if_neg hpass, cut?_spelled hspace]
  simp only [m.read?_text, hoperands]

end Instructions

-- A line that the machine takes as it was meant.
structure Line.Reads (l : Line) : Prop where
  newline : '\n' ∉ l.text.toList
  trimmed : Trimmed l.text.toList
  order : Asm.order l.text.toList = l.order
  definition : definition? l.text.toList = some l.definition

section Lines

variable {x : String} {l : Label} {i : Instr}

theorem Unbroken.not_mem {c : Char} (h : Unbroken x) (hc : c ∈ breaks) : c ∉ x.toList :=
  fun hmem => h c hmem hc

theorem Instr.reads (h : ∀ x ∈ i.names, Unbroken x) : (Line.instr i).Reads := by
  have hops : ∀ o ∈ i.operands, IsOperand o := by
    cases i with
    | load r o | cmp r o => simpa [operands, r.isOperand] using Operand.isOperand h
    | store x r => simpa [operands, r.isOperand] using Operand.isOperand (o := .cell x) h
    | push r | pop r | mul r | dec r => simp [operands, r.isOperand]
    | add r q | sub r q => simp [operands, r.isOperand, q.isOperand]
    | jump j l => simpa [operands] using Label.isOperand h
    | halt => simp [operands]
  have htext : (Line.instr i).text.toList = spelled i.mnemonic i.operands := i.toList_text
  constructor <;> rw [htext]
  case newline => exact not_mem_spelled hops (by decide) (by decide)
  case trimmed => exact trimmed_spelled hops
  case order => exact order_spelled hops
  case definition => exact definition?_spelled hops

theorem Label.reads (h : ∀ x ∈ l.names, Unbroken x) : (Line.label l).Reads := by
  have hlabel := Label.isOperand h
  have htext : (Line.label l).text.toList = l.text.toList ++ [':'] := String.toList_append
  obtain ⟨c, w, hw⟩ := List.exists_cons_of_ne_nil hlabel.ne_nil
  have hnote : c ≠ ';' := by
    have hhead := l.head?_text
    rw [hw] at hhead
    rintro rfl
    cases l <;> simp [initial] at hhead
  constructor <;> rw [htext]
  case newline => simpa using hlabel.unbroken.not_mem (by decide)
  case trimmed =>
    refine ⟨?_, by simp +decide⟩
    have hhead := hlabel.trimmed.head
    rw [hw] at hhead ⊢
    exact hhead
  case order => rw [Asm.order, if_pos (by simp)]; rfl
  case definition =>
    have hcolon : ':' ∉ l.text.toList := hlabel.unbroken.not_mem (by decide)
    have htrim : trim [] = [] := rfl
    rw [definition?, if_neg (by simp [hw, hnote]), cut?_append hcolon]
    simp [htrim, Line.definition]

theorem cell_reads (h : Unbroken x) : (Line.cell x).Reads := by
  have hname : Unbroken (cellName x) := unbroken_append.mpr ⟨by decide, h⟩
  have htext : (Line.cell x).text.toList = (cellName x).toList ++ ':' :: " DB 0".toList :=
    String.toList_append
  have hhead : (cellName x).toList = 'v' :: ("ar_" ++ x).toList := by simp [cellName]
  constructor <;> rw [htext]
  case newline =>
    rw [List.mem_append, not_or]
    exact ⟨hname.not_mem (by decide), by decide⟩
  case trimmed => exact ⟨by simp +decide [hhead], by simp +decide⟩
  case order =>
    have hinfix : ": DB".toList <:+: (cellName x).toList ++ ':' :: " DB 0".toList :=
      ⟨(cellName x).toList, " 0".toList, by simp⟩
    rw [Asm.order, if_pos (.inr (.inr (.inr hinfix)))]
    rfl
  case definition =>
    have htrim : trim " DB 0".toList = "DB 0".toList := by decide
    have hzero : integer? (trim ("DB 0".toList.drop 3)) = some 0 := by decide
    rw [definition?, if_neg (by simp [hhead]), cut?_append (hname.not_mem (by decide))]
    simp only [htrim, hzero, String.ofList_toList]
    rfl

theorem note_reads (h : Unbroken x) : (Line.note x).Reads := by
  have htext : (Line.note x).text =
      "; Saturated decrement for " ++ x ++ ": if (" ++ x ++ " > 0) " ++ x ++ "--" := rfl
  have hhead : (Line.note x).text.toList.head? = some ';' := by simp [htext]
  constructor
  case newline =>
    have hx : '\n' ∉ x.toList := h.not_mem (by decide)
    simp [htext, hx]
  case trimmed =>
    have hlast : (Line.note x).text.toList.getLast? = some '-' := by
      rw [htext, String.toList_append, List.getLast?_append]
      rfl
    exact ⟨by simp +decide [hhead], by simp +decide [hlast]⟩
  case order => rw [Asm.order, if_pos (.inr (.inl hhead))]; rfl
  case definition => rw [definition?, if_pos hhead]; rfl

theorem blank_reads : Line.blank.Reads :=
  ⟨by decide, by decide, by decide, by decide⟩

theorem Line.reads {l : Line} (h : ∀ x ∈ l.names, Unbroken x) : l.Reads := by
  cases l with
  | instr i => exact Instr.reads h
  | label l => exact Label.reads h
  | cell x => exact cell_reads (h x List.mem_cons_self)
  | note x => exact note_reads (h x List.mem_cons_self)
  | blank => exact blank_reads

end Lines

section Texts

variable {code : Code}

theorem rows_text (h : ∀ l ∈ code, l.Reads) :
    rows code.text.toList = code.map (·.text.toList) := by
  have hsplit : code.text.toList.splitOn '\n' = code.map (·.text.toList) ++ [[]] := by
    induction code with
    | nil => rfl
    | cons l code ih =>
      have ⟨hl, hcode⟩ := List.forall_mem_cons.mp h
      have htext : (Code.text (l :: code)).toList =
          l.text.toList ++ '\n' :: (Code.text code).toList := by
        simp [Code.text, String.join_cons]
      rw [htext, List.splitOn_append_cons_self_of_not_mem hl.newline, ih hcode]
      rfl
  have htrim : ∀ l ∈ code, trim l.text.toList = l.text.toList := fun l hl =>
    (h l hl).trimmed.trim_eq
  rw [rows, hsplit]
  simpa using htrim

theorem mapM_definition? (h : ∀ l ∈ code, l.Reads) :
    (code.map (·.text.toList)).mapM definition? = some (code.map Line.definition) := by
  induction code with
  | nil => rfl
  | cons l code ih =>
    have ⟨hl, hcode⟩ := List.forall_mem_cons.mp h
    rw [List.map_cons, List.mapM_cons, hl.definition, ih hcode]
    rfl

-- The text of code is read as the code, line by line.
theorem Script.read?_text (h : ∀ x ∈ code.names, Unbroken x) :
    Script.read? code.text = some code.script := by
  have hreads : ∀ l ∈ code, l.Reads := fun l hl =>
    Line.reads fun x hx => h x (List.mem_flatMap.mpr ⟨l, hl, hx⟩)
  have horders : (code.map (·.text.toList)).map order = code.map Line.order := by
    rw [List.map_map]
    exact List.map_congr_left fun l hl => (hreads l hl).order
  simp only [Script.read?, rows_text hreads, mapM_definition? hreads, horders]
  rfl

end Texts

namespace Code

@[simp]
theorem names_nil : names [] = [] :=
  rfl

@[simp]
theorem names_append (c d : Code) : names (c ++ d) = names c ++ names d :=
  List.flatMap_append

@[simp]
theorem names_cons (l : Line) (c : Code) : names (l :: c) = l.names ++ names c :=
  List.flatMap_cons

@[simp]
theorem names_map_cell (xs : List String) : names (xs.map .cell) = xs := by
  simp [names, List.flatMap_map, Line.names]

end Code

end Asm

open Asm

@[simp]
theorem Expr.names_asm (e : Expr) : Code.names e.asm = e.names := by
  induction e with
  | num | var => rfl
  | bin op l r ihl ihr =>
    cases op <;>
      simp [asm, arith, names, ihl, ihr, Line.names, Instr.names, Operand.names]

namespace Program

variable {p : Program} {n n' : Nat} {c : Code}

-- Code names nothing that its program does not.
theorem names_asm_subset (h : p.asm n = .ok (c, n')) : c.names ⊆ p.mentions := by
  have store : ∀ {x : String} {e : Expr} {k : Program} {c : Code}, c.names ⊆ k.mentions →
      Code.names (e.asm ++ [.instr (.store x .a)] ++ c) ⊆ x :: (e.names ++ k.mentions) := by
    intro x e k c ih y
    simp only [Code.names_append, Code.names_cons, Code.names_nil, Expr.names_asm, Line.names,
      Instr.names]
    grind
  refine asm_induction (P := fun p _ c _ => c.names ⊆ p.mentions) ?_ ?_ ?_ ?_ ?_ h
  case refine_1 => exact fun _ => List.nil_subset _
  case refine_2 => exact fun ih => mentions_declare .. ▸ store ih
  case refine_3 => exact fun _ ih => mentions_assign .. ▸ store ih
  case refine_4 =>
    intro x k n c n' ih y
    simp only [decrement, Code.names_append, Code.names_cons, Code.names_nil, Line.names,
      Instr.names, Operand.names, Label.names, mentions_assign]
    grind
  case refine_5 =>
    intro test b k n cb m c n' ihb ih y
    simp only [Cond.asmExit, Code.names_append, Code.names_cons, Code.names_nil, Expr.names_asm,
      Line.names, Instr.names, Operand.names, Label.names, mentions_loop]
    grind

theorem unbroken_whole (h : p.asm 0 = .ok (c, n)) (hp : ∀ x ∈ p.mentions, Unbroken x) :
    ∀ x ∈ (Code.whole (p.names .declarationsAndAssignments) c).names, Unbroken x := by
  intro x hx
  simp only [Code.whole, Code.names_append, Code.names_cons, Code.names_nil, Code.names_map_cell,
    Line.names, Instr.names, Label.names, List.nil_append, List.append_nil, List.mem_append] at hx
  refine hp x (hx.elim (fun hx => ?_) fun hx => names_asm_subset h hx)
  exact introduced_subset_mentions p _ (mem_names.mp hx)

end Program

end Imp
