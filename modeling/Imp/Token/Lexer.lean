import Imp.Token

/-!
From source text to tokens.

`first` finds the lexeme at the head of a text, `tokens` repeats it. A lexeme is as long as
possible: a word is a run of letters and underscores, a number a run of digits, and `=`, `<`, `>`,
`!` take a `=` that follows. Every character of a blank or a lexeme is one byte long, so counting
characters counts bytes up to the first fault.
-/

namespace Imp

inductive LexError
  | unexpected (position : Nat) (char : Char)
  | outOfRange (position : Nat) (digits : String)
deriving DecidableEq, Repr, Inhabited

def LexError.message : LexError → String
  | unexpected p c =>
    "lex error at byte " ++ toString p ++ ": unexpected character '" ++ c.toString ++ "'"
  | outOfRange p ds =>
    "lex error at byte " ++ toString p ++ ": integer literal " ++ ds ++ " does not fit in 32 bits"

namespace Token.Lexer

def isBlank (c : Char) : Bool :=
  c = ' ' || c = '\t' || c = '\n' || c = '\x0c' || c = '\r'

def isWordChar (c : Char) : Bool :=
  c.isAlpha || c = '_'

-- The lexeme at the head of a text, and the text behind it.
structure Lexeme where
  kind : Kind
  text : List Char
  rest : List Char
deriving DecidableEq, Repr, Inhabited

-- Marks that consist of one character and never take a second.
def mark? : Char → Option Kind
  | '+' => some (.operator .add)
  | '-' => some (.operator .sub)
  | '*' => some (.operator .mul)
  | ';' => some .semicolon
  | '(' => some .openParen
  | ')' => some .closeParen
  | '\x7b' => some .openBrace
  | '\x7d' => some .closeBrace
  | _ => none

-- Marks that `=` completes: the kind alone, if there is one, and the kind with `=`.
def beforeEquals? : Char → Option (Option Kind × Kind)
  | '=' => some (some .assign, .relation .eq)
  | '>' => some (some (.relation .gt), .relation .ge)
  | '<' => some (some (.relation .lt), .relation .le)
  | '!' => some (none, .relation .ne)
  | _ => none

-- The largest number that a literal may have.
def maxLiteral : Nat := 2147483647

def word (d : Dialect) (c : Char) (rest : List Char) : Lexeme :=
  let text := c :: rest.takeWhile isWordChar
  ⟨.ofWord d (String.ofList text), text, rest.dropWhile isWordChar⟩

def number (p : Nat) (c : Char) (rest : List Char) : Except LexError Lexeme :=
  let text := c :: rest.takeWhile Char.isDigit
  let value := Nat.ofDigitChars 10 text 0
  if value ≤ maxLiteral then
    .ok ⟨.number (Int32.ofNat value), text, rest.dropWhile Char.isDigit⟩
  else
    .error (.outOfRange p (String.ofList text))

def symbol (p : Nat) (c : Char) (rest : List Char) : Except LexError Lexeme :=
  match mark? c with
  | some k => .ok ⟨k, [c], rest⟩
  | none =>
    match beforeEquals? c, rest with
    | some (_, k), '=' :: rest => .ok ⟨k, [c, '='], rest⟩
    | some (some k, _), rest => .ok ⟨k, [c], rest⟩
    | _, _ => .error (.unexpected p c)

-- The lexeme at the head of `c :: rest`, which stands at byte `p` and is not blank.
def first (d : Dialect) (p : Nat) (c : Char) (rest : List Char) : Except LexError Lexeme :=
  if isWordChar c then .ok (word d c rest)
  else if c.isDigit then number p c rest
  else symbol p c rest

theorem text_append_rest_of_first {d p c rest l} (h : first d p c rest = .ok l) :
    l.text ++ l.rest = c :: rest ∧ l.text ≠ [] := by
  unfold first at h
  split at h
  case isTrue => cases h; simp [word, List.takeWhile_append_dropWhile]
  case isFalse =>
    split at h
    case isTrue =>
      simp only [number] at h
      split at h <;> cases h
      simp [List.takeWhile_append_dropWhile]
    case isFalse =>
      unfold symbol at h
      split at h
      · cases h; simp
      · split at h <;> cases h <;> simp

theorem rest_length_of_first {d p c rest l} (h : first d p c rest = .ok l) :
    l.rest.length < (c :: rest).length := by
  have ⟨hl, hn⟩ := text_append_rest_of_first h
  have := List.length_pos_iff.mpr hn
  simp [← hl, this]

-- The tokens of a text that starts at byte `p`.
def scan (d : Dialect) (p : Nat) : List Char → Except LexError (List Token)
  | [] => .ok [⟨.eof, p⟩]
  | c :: rest =>
    if isBlank c then scan d (p + 1) rest
    else
      match h : first d p c rest with
      | .error e => .error e
      | .ok l =>
        have := rest_length_of_first h
        match scan d (p + l.text.length) l.rest with
        | .error e => .error e
        | .ok ts => .ok (⟨l.kind, p⟩ :: ts)
termination_by cs => cs.length
decreasing_by
  · exact Nat.lt_add_one _
  · assumption

end Token.Lexer

-- The tokens of a source text; the last one, and no other, is the end of input.
def Dialect.tokens (d : Dialect) (source : String) : Except LexError (List Token) :=
  Token.Lexer.scan d 0 source.toList

end Imp
