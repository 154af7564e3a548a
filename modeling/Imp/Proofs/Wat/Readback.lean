import Imp.Proofs.Listing
import Imp.Proofs.Wat.Machine
import Imp.Proofs.Wat.Text

/-!
The text of a module reads as the function that it was made from, in any indentation by white space.
-/

namespace Imp

namespace Wat

mutual

-- What an instruction is written as.
def Instr.items : Instr → List Item
  | .const v => [.word "i32.const", .word (toString v.toInt)]
  | .get x => [.word "local.get", .word ("$" ++ x)]
  | .set x => [.word "local.set", .word ("$" ++ x)]
  | .arith op => [.word (arithText op)]
  | .compare r => [.word (compareText r)]
  | .eqz => [.word "i32.eqz"]
  | .br l => [.word "br", .word l.text]
  | .brIf l => [.word "br_if", .word l.text]
  | .block l c => [.list ([.word "block", .word l.text] ++ Code.items c)]
  | .loop l c => [.list ([.word "loop", .word l.text] ++ Code.items c)]
  | .branch t none => [.list ([.word "if"] ++ [.list ([.word "then"] ++ Code.items t)])]
  | .branch t (some f) =>
    [.list ([.word "if"] ++ ([.list ([.word "then"] ++ Code.items t)]
      ++ [.list ([.word "else"] ++ Code.items f)]))]

def Code.items : Code → List Item
  | [] => []
  | i :: c => i.items ++ Code.items c

end

section Code

variable {locals : List String} {w operand : String} {i : Instr} {items rest : List Item}

theorem code?_plain (hw : plain.lookup w = some i) :
    code? (.word w :: rest) = (code? rest).map (i :: ·) := by
  rw [code?.eq_def]
  simp only [hw]
  cases code? rest <;> rfl

theorem code?_immediate (hw : plain.lookup w = none) (hi : immediate? w operand = some i) :
    code? (.word w :: .word operand :: rest) = (code? rest).map (i :: ·) := by
  rw [code?, hw, hi]
  cases code? rest <;> rfl

theorem code?_nested (hi : nested? items = some i) :
    code? (.list items :: rest) = (code? rest).map (i :: ·) := by
  rw [code?, hi]
  cases code? rest <;> rfl

mutual

theorem code?_instr (hx : ∀ x ∈ locals, IsPlain x) {ls : List Label} {ts us : StackType}
    (rest : List Item) :
    ∀ i : Instr, i.Typed locals ls ts us → code? (i.items ++ rest) = (code? rest).map (i :: ·)
  | .const v, _ =>
    code?_immediate rfl (by simp only [immediate?, integer?_text, Option.map_some])
  | .get x, .get declared =>
    code?_immediate rfl (by simp [immediate?, name?_dollar (hx x declared)])
  | .set x, .set declared =>
    code?_immediate rfl (by simp [immediate?, name?_dollar (hx x declared)])
  | .arith op, _ => code?_plain (by cases op <;> rfl)
  | .compare r, _ => code?_plain (by cases r <;> rfl)
  | .eqz, _ => code?_plain rfl
  | .br l, _ => code?_immediate rfl (by simp [immediate?, label?_text])
  | .brIf l, _ => code?_immediate rfl (by simp [immediate?, label?_text])
  | .block l c, .block body => by
    have hbody := code?_items hx c body
    refine code?_nested ?_
    simp [nested?, label?_text, hbody]
  | .loop l c, .loop body => by
    have hbody := code?_items hx c body
    refine code?_nested ?_
    simp [nested?, label?_text, hbody]
  | .branch t none, .branch ht => by
    have ht := code?_items hx t ht
    refine code?_nested ?_
    simp [nested?, ht]
  | .branch t (some f), .branchElse ht hf => by
    have ht := code?_items hx t ht
    have hf := code?_items hx f hf
    refine code?_nested ?_
    simp [nested?, ht, hf]

theorem code?_items (hx : ∀ x ∈ locals, IsPlain x) {ls : List Label} {ts us : StackType} :
    ∀ c : Code, c.Typed locals ls ts us → code? c.items = some c
  | [], _ => by simp [Code.items, code?]
  | i :: c, .cons first rest => by
    rw [Code.items, code?_instr hx _ i first, code?_items hx c rest]
    rfl

end

end Code

-- A listing stands for some items, with whatever may stand behind it.
structure Reads (indent : String) (ls : Listing) (items : List Item) : Prop where
  group : ∀ its outer cs, group? its outer (tokens ((ls.render indent).toList ++ cs))
    = group? (items.reverse ++ its) outer (tokens cs)
  nesting : ∀ depth, (ls.render indent).toList.foldlM nest depth = some depth

namespace Reads

variable {indent text : String} {ls ls' : Listing} {xs ys : List Item} {depth : Nat}

theorem nil : Reads indent [] [] where
  group _ _ _ := rfl
  nesting _ := rfl

theorem append (h : Reads indent ls xs) (h' : Reads indent ls' ys) :
    Reads indent (ls ++ ls') (xs ++ ys) where
  group its outer cs := by
    rw [Listing.toList_render_append, List.append_assoc, h.group, h'.group, List.reverse_append,
      List.append_assoc]
  nesting depth := by
    simp [Listing.toList_render_append, h.nesting, h'.nesting]

variable (hi : ∀ c ∈ indent.toList, c.isWhitespace)
include hi

theorem tokens_cons (cs : List Char) :
    tokens ((Listing.render indent (⟨depth, text⟩ :: ls)).toList ++ cs)
      = tokens (text.toList ++ '\n' :: ((ls.render indent).toList ++ cs)) := by
  rw [Listing.toList_render_cons, Line.render, String.toList_append, List.append_assoc,
    List.append_assoc, tokens_blank fun c hc => hi c (Line.mem_margin hc), List.cons_append]

theorem nest_cons (d : Nat) :
    (Listing.render indent (⟨depth, text⟩ :: ls)).toList.foldlM nest d
      = (text.toList.foldlM nest d).bind ((ls.render indent).toList.foldlM nest ·) := by
  have hflat : ∀ c ∈ (Line.margin indent depth).toList, c ≠ '(' ∧ c ≠ ')' := by
    intro c hc
    have hblank := hi c (Line.mem_margin hc)
    constructor <;> (rintro rfl; exact absurd hblank (by decide))
  have hfeed : ∀ d, nest d '\n' = some d := fun _ => rfl
  simp [Listing.toList_render_cons, Line.render, foldlM_nest_of_flat hflat, hfeed]

theorem line (h : Spells text.toList xs) : Reads indent [⟨depth, text⟩] xs where
  group its outer cs := by
    rw [tokens_cons hi, h.group _ _ _ rfl, Listing.toList_render_nil, List.nil_append,
      tokens_newline]
  nesting d := by
    rw [nest_cons hi, h.nesting, Listing.toList_render_nil]
    rfl

-- A list over several lines: its first items stand on the line of its opening parenthesis.
theorem list {depth' : Nat} {opening : List Char} (htext : text.toList = '(' :: opening)
    (h : Spells opening xs) (hbody : Reads indent ls ys) :
    Reads indent (⟨depth, text⟩ :: ls ++ [⟨depth', ")"⟩]) [.list (xs ++ ys)] where
  group its outer cs := by
    have hclose : tokens ((Listing.render indent [⟨depth', ")"⟩]).toList ++ cs)
        = .closeParen :: tokens cs := by
      rw [tokens_cons hi]
      exact (tokens_closeParen _).trans (congrArg _ (tokens_newline _))
    rw [List.cons_append, tokens_cons hi, htext, List.cons_append, tokens_openParen, group?,
      h.group _ _ _ rfl, tokens_newline, Listing.toList_render_append, List.append_assoc,
      hbody.group, hclose, group?]
    simp
  nesting d := by
    rw [List.cons_append, nest_cons hi, htext, Listing.toList_render_append]
    simp [nest, h.nesting, hbody.nesting, nest_cons hi, Listing.toList_render_nil]

theorem word (hw : IsWord text) : Reads indent [⟨depth, text⟩] [.word text] :=
  line hi (.word hw)

theorem pair {w u : String} (htext : text.toList = w.toList ++ ' ' :: u.toList) (hw : IsWord w)
    (hu : IsWord u) : Reads indent [⟨depth, text⟩] [.word w, .word u] :=
  line hi (htext ▸ (Spells.word hw).blank (.word hu))

-- A list over several lines with nothing but a word on the first one.
theorem clause (depth : Nat) (text w : String) (htext : text.toList = '(' :: w.toList)
    (hw : IsWord w) (hbody : Reads indent ls ys) :
    Reads indent (⟨depth, text⟩ :: ls ++ [⟨depth, ")"⟩]) [.list ([.word w] ++ ys)] :=
  list hi htext (.word hw) hbody

end Reads

theorem isWord_arithText (op : Operator) : IsWord (arithText op) := by
  cases op <;> decide

theorem isWord_compareText (r : Relation) : IsWord (compareText r) := by
  cases r <;> decide

section Listing

variable {indent : String} {locals : List String}

mutual

theorem reads_instr (hi : ∀ c ∈ indent.toList, c.isWhitespace) (hx : ∀ x ∈ locals, IsPlain x)
    {ls : List Label} {ts us : StackType} (depth : Nat) :
    ∀ i : Instr, i.Typed locals ls ts us → Reads indent (i.listing depth) i.items
  | .const v, _ => .pair hi (by simp) (by decide) (isWord_integer v)
  | .get x, .get declared =>
    .pair hi (by simp) (by decide) (hx x declared).isWord_dollar
  | .set x, .set declared =>
    .pair hi (by simp) (by decide) (hx x declared).isWord_dollar
  | .arith op, _ => .word hi (isWord_arithText op)
  | .compare r, _ => .word hi (isWord_compareText r)
  | .eqz, _ => .word hi (by decide)
  | .br l, _ => .pair hi (by simp) (by decide) (isWord_label l)
  | .brIf l, _ => .pair hi (by simp) (by decide) (isWord_label l)
  | .block l c, .block body =>
    .list hi (by simp) ((Spells.word (by decide)).blank (.word (isWord_label l)))
      (reads_code hi hx (depth + 1) c body)
  | .loop l c, .loop body =>
    .list hi (by simp) ((Spells.word (by decide)).blank (.word (isWord_label l)))
      (reads_code hi hx (depth + 1) c body)
  | .branch t none, .branch ht => by
    have hthen := Reads.clause hi (depth + 1) "(then" "then" (by simp) (by decide)
      (reads_code hi hx (depth + 2) t ht)
    have hif := Reads.clause hi depth "(if" "if" (by simp) (by decide) hthen
    simpa [Instr.listing, Instr.items] using hif
  | .branch t (some f), .branchElse ht hf => by
    have hthen := Reads.clause hi (depth + 1) "(then" "then" (by simp) (by decide)
      (reads_code hi hx (depth + 2) t ht)
    have helse := Reads.clause hi (depth + 1) "(else" "else" (by simp) (by decide)
      (reads_code hi hx (depth + 2) f hf)
    have hif := Reads.clause hi depth "(if" "if" (by simp) (by decide)
      (hthen.append helse)
    simpa [Instr.listing, Instr.items] using hif

theorem reads_code (hi : ∀ c ∈ indent.toList, c.isWhitespace) (hx : ∀ x ∈ locals, IsPlain x)
    {ls : List Label} {ts us : StackType} (depth : Nat) :
    ∀ c : Code, c.Typed locals ls ts us → Reads indent (Code.listing depth c) c.items
  | [], _ => .nil
  | i :: c, .cons first rest =>
    .append (reads_instr hi hx depth i first) (reads_code hi hx depth c rest)

end

end Listing

@[simp]
theorem Code.listing_append (depth : Nat) (c d : Code) :
    Code.listing depth (c ++ d) = Code.listing depth c ++ Code.listing depth d := by
  induction c with
  | nil => rfl
  | cons i c ih => simp [listing, ih]

namespace Module

variable {m : Module} {indent : String}

-- The function of a module. The local that it returns is the operand of its last instruction.
def toFunction (m : Module) : Function where
  name := m.function
  exported := m.exported
  results := if m.result.isSome then [.i32] else []
  locals := m.locals
  body := m.body

def exportItems (m : Module) : List Item :=
  (m.exported.map fun e => .list [.word "export", .str e]).toList

def resultItems (m : Module) : List Item :=
  if m.result.isSome then [.list [.word "result", .word "i32"]] else []

def localItem (x : String) : Item :=
  .list [.word "local", .word ("$" ++ x), .word "i32"]

theorem listing_eq (m : Module) : m.listing = ⟨0, "(module"⟩ ::
    (⟨1, m.header⟩ :: (m.locals.map (fun x => ⟨2, "(local $" ++ x ++ " i32)"⟩)
      ++ Code.listing 2 m.body) ++ [⟨1, ")"⟩]) ++ [⟨0, ")"⟩] := by
  have hresult : (m.result.toList.flatMap fun x => Instr.listing 2 (.get x))
      = Code.listing 2 (m.result.map .get).toList := by
    cases m.result <;> rfl
  simp [listing, body, hresult]

theorem header_spells (hf : IsPlain m.function) (he : ∀ e ∈ m.exported, IsPlain e) :
    ∃ opening, m.header.toList = '(' :: opening ∧ Spells opening
      ([.word "func", .word ("$" ++ m.function)] ++ m.exportItems ++ m.resultItems) := by
  have hname := (Spells.word (by decide : IsWord "func")).blank (.word hf.isWord_dollar)
  have hresult := ((Spells.word (by decide : IsWord "result")).blank
    (.word (by decide : IsWord "i32"))).list
  have hexport := fun e h =>
    hname.blank ((Spells.word (by decide : IsWord "export")).blank (.str (he e h))).list
  refine ⟨m.header.toList.tail, by simp [header], ?_⟩
  cases hx : m.exported with
  | none =>
    cases hr : m.result with
    | none => simpa [header, exportItems, resultItems, hx, hr] using hname
    | some x => simpa [header, exportItems, resultItems, hx, hr] using hname.blank hresult
  | some e =>
    have hexport := hexport e hx
    cases hr : m.result with
    | none => simpa [header, exportItems, resultItems, hx, hr] using hexport
    | some x => simpa [header, exportItems, resultItems, hx, hr] using hexport.blank hresult

theorem local_spells {x : String} (hx : IsPlain x) :
    Spells ("(local $" ++ x ++ " i32)").toList [localItem x] := by
  have hname := (Spells.word (by decide : IsWord "local")).blank (.word hx.isWord_dollar)
  simpa [localItem] using (hname.blank (.word (by decide : IsWord "i32"))).list

theorem reads_locals (hi : ∀ c ∈ indent.toList, c.isWhitespace) {xs : List String}
    (hx : ∀ x ∈ xs, IsPlain x) : Reads indent (xs.map fun x => ⟨2, "(local $" ++ x ++ " i32)"⟩)
      (xs.map localItem) := by
  induction xs with
  | nil => exact .nil
  | cons x xs ih =>
    have ⟨hx, hxs⟩ := List.forall_mem_cons.mp hx
    exact (Reads.line hi (local_spells hx)).append (ih hxs)

theorem reads (hi : ∀ c ∈ indent.toList, c.isWhitespace) (hf : IsPlain m.function)
    (he : ∀ e ∈ m.exported, IsPlain e) (hx : ∀ x ∈ m.locals, IsPlain x) {ts : StackType}
    (ht : m.body.Typed m.locals [] [] ts) : Reads indent m.listing
      [.list ([.word "module"] ++ [.list ([.word "func", .word ("$" ++ m.function)] ++ m.exportItems
        ++ m.resultItems ++ (m.locals.map localItem ++ m.body.items))])] := by
  have ⟨opening, hopening, hspells⟩ := header_spells hf he
  have hinside := (reads_locals hi hx).append (reads_code hi hx 2 m.body ht)
  have hfunc : Reads indent (⟨1, m.header⟩ :: _ ++ [⟨1, ")"⟩]) _ :=
    .list hi hopening hspells hinside
  have hmodule := Reads.clause hi 0 "(module" "module" (by simp) (by decide) hfunc
  rw [listing_eq]
  exact hmodule

end Module

-- The keyword of the list that items begin with.
def keyword? : List Item → Option String
  | .list (.word w :: _) :: _ => some w
  | _ => none

section Function

variable {items : List Item}

theorem export?_of_keyword (h : keyword? items ≠ some "export") :
    export? items = (none, items) := by
  unfold export?
  split
  · exact absurd rfl h
  · rfl

theorem results?_of_keyword (h : keyword? items ≠ some "result") :
    results? items = ([], items) := by
  unfold results?
  split
  · exact absurd rfl h
  · rfl

theorem locals?_of_keyword (h : keyword? items ≠ some "local") :
    locals? items = some ([], items) := by
  unfold locals?
  split
  · exact absurd rfl h
  · rfl

theorem locals?_map {xs : List String} (hx : ∀ x ∈ xs, IsPlain x)
    (h : keyword? items ≠ some "local") :
    locals? (xs.map Module.localItem ++ items) = some (xs, items) := by
  induction xs with
  | nil => exact locals?_of_keyword h
  | cons x xs ih =>
    have ⟨hx, hxs⟩ := List.forall_mem_cons.mp hx
    simp [Module.localItem, locals?, name?_dollar hx, ih hxs]

theorem Code.keyword?_items (c : Code) :
    keyword? c.items ∈ [none, some "block", some "loop", some "if"] := by
  match c with
  | [] => simp [items, keyword?]
  | i :: c =>
    match i with
    | .branch _ none | .branch _ (some _) | .block .. | .loop .. | .const _ | .get _ | .set _
    | .arith _ | .compare _ | .eqz | .br _ | .brIf _ => simp [items, Instr.items, keyword?]

end Function

namespace Module

variable {m : Module} {indent : String} {ts : StackType}

theorem function?_items (hf : IsPlain m.function) (hx : ∀ x ∈ m.locals, IsPlain x)
    (ht : m.body.Typed m.locals [] [] ts) :
    function? ([.word "func", .word ("$" ++ m.function)] ++ m.exportItems ++ m.resultItems
      ++ (m.locals.map localItem ++ m.body.items)) = some m.toFunction := by
  have hcode := Code.keyword?_items m.body
  have hrest : keyword? (m.locals.map localItem ++ m.body.items)
      ∈ [some "local", none, some "block", some "loop", some "if"] := by
    cases m.locals with
    | nil => exact List.mem_cons_of_mem _ hcode
    | cons x xs => exact List.mem_cons_self
  generalize hr : m.locals.map localItem ++ m.body.items = rest at hrest
  have hresults : results? (m.resultItems ++ rest) = (m.toFunction.results, rest) := by
    unfold resultItems toFunction
    split
    · rfl
    · exact results?_of_keyword (by grind)
  have hexport : export? (m.exportItems ++ (m.resultItems ++ rest))
      = (m.exported, m.resultItems ++ rest) := by
    unfold exportItems
    cases m.exported with
    | some e => rfl
    | none =>
      refine export?_of_keyword ?_
      unfold resultItems
      split
      · simp [keyword?]
      · simpa using (by grind : keyword? rest ≠ some "export")
  have hlocals : locals? rest = some (m.locals, m.body.items) :=
    hr ▸ locals?_map hx (by grind)
  have hbody := code?_items hx m.body ht
  simp only [List.append_assoc, List.cons_append, List.nil_append, function?, hexport, hresults,
    hlocals, name?_dollar hf, Option.bind_eq_bind, Option.bind_some, hbody]
  rfl

section Text

variable (hi : ∀ c ∈ indent.toList, c.isWhitespace) (hf : IsPlain m.function)
  (he : ∀ e ∈ m.exported, IsPlain e) (hx : ∀ x ∈ m.locals, IsPlain x)
  (ht : m.body.Typed m.locals [] [] ts)
include hi hf he hx ht

theorem text_balanced : Balanced (m.text indent) :=
  (reads hi hf he hx ht).nesting 0

theorem read?_text : read? (m.text indent) = some m.toFunction := by
  have hgroup := (reads hi hf he hx ht).group [] [] []
  rw [List.append_nil] at hgroup
  rw [read?, text, hgroup, tokens]
  exact function?_items hf hx ht

end Text

end Module

end Wat

end Imp
