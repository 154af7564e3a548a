import Imp.Program.Parser
import Imp.Token.Lexer

/-!
Source text to tokens and program.
-/

namespace Imp

inductive SourceError
  | lex (e : LexError)
  | parse (e : ParseError)
deriving DecidableEq, Repr, Inhabited

def SourceError.message : SourceError → String
  | lex e => e.message
  | parse e => e.message

-- The tokens of a source text and the program they make up.
structure Source where
  tokens : List Token
  program : Program
deriving DecidableEq, Inhabited

namespace Dialect

def read (d : Dialect) (text : String) : Except SourceError Source :=
  match d.tokens text with
  | .error e => .error (.lex e)
  | .ok ts =>
    match d.parseTokens ts with
    | .error e => .error (.parse e)
    | .ok p => .ok ⟨ts, p⟩

def parse (d : Dialect) (text : String) : Except SourceError Program := do
  return (← d.read text).program

end Dialect

end Imp
