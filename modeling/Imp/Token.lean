import Imp.Dialect
import Imp.Operator

/-!
Tokens: a kind and the byte at which its lexeme starts.
-/

namespace Imp

namespace Token

inductive Kind
  | varWord | whileWord | ifWord | elseWord
  | ident (name : String)
  | number (value : Int32)
  | operator (op : Operator)
  | relation (rel : Relation)
  | assign | openParen | closeParen | openBrace | closeBrace | semicolon
  | eof
deriving DecidableEq, Repr, Inhabited

namespace Kind

def tag : Kind → String
  | varWord => "VAR"
  | whileWord => "WHILE"
  | ifWord => "IF"
  | elseWord => "ELSE"
  | ident _ => "IDENT"
  | number _ => "NUMBER"
  | operator .add => "PLUS"
  | operator .sub => "MINUS"
  | operator .mul => "STAR"
  | relation .gt => "GT"
  | relation .lt => "LT"
  | relation .ge => "GTE"
  | relation .le => "LTE"
  | relation .eq => "EQ"
  | relation .ne => "NEQ"
  | assign => "ASSIGN"
  | openParen => "LPAREN"
  | closeParen => "RPAREN"
  | openBrace => "LBRACE"
  | closeBrace => "RBRACE"
  | semicolon => "SEMI"
  | eof => "EOF"

-- The text of a token; a number's is its value in decimal. The end of input has none.
def lexeme? : Kind → Option String
  | varWord => some "var"
  | whileWord => some "while"
  | ifWord => some "if"
  | elseWord => some "else"
  | ident x => some x
  | number v => some (toString v.toInt)
  | operator op => some op.symbol
  | relation r => some r.symbol
  | assign => some "="
  | openParen => some "("
  | closeParen => some ")"
  | openBrace => some "\x7b"
  | closeBrace => some "\x7d"
  | semicolon => some ";"
  | eof => none

def display (k : Kind) : String :=
  match k.lexeme? with
  | some text => k.tag ++ " '" ++ text ++ "'"
  | none => k.tag

-- The kind of a word. The words of conditionals are reserved in the full dialect only.
def ofWord (d : Dialect) : String → Kind
  | "var" => varWord
  | "while" => whileWord
  | "if" => if d.hasConditionals then ifWord else ident "if"
  | "else" => if d.hasConditionals then elseWord else ident "else"
  | x => ident x

-- Kinds whose tag stands for one kind without a value.
def plain : List Kind :=
  [varWord, whileWord, ifWord, elseWord, assign, openParen, closeParen, openBrace, closeBrace,
    semicolon, eof] ++ Operator.all.map operator ++ Relation.all.map relation

-- The kind of a tag that needs no value.
def ofTag? (tag : String) : Option Kind :=
  plain.find? (·.tag = tag)

end Kind

end Token

structure Token where
  kind : Token.Kind
  position : Nat
deriving DecidableEq, Repr, Inhabited

-- The line of a token in a printed listing. Positions take at least five places.
def Token.line (t : Token) : String :=
  String.ofList (List.leftpad 5 ' ' (Nat.toDigits 10 t.position)) ++ "  " ++ t.kind.display

end Imp
