import Imp.CommandLine.Argument
import Imp.CommandLine.Report
import Imp.Dialect

/-!
The texts of the notices.
-/

namespace Imp

namespace CommandLine

def versionLine : String := "whilelang-cli 0.1.0"

namespace Argument

-- What an argument is for.
def purpose : Argument → String
  | param .file => "Source file name inside `<root>/origin` [default: program.txt]"
  | param .root => "Workspace root holding origin/, ast/, trace/ and dist/ [default: .]"
  | param .dialect =>
    "[default: " ++ Dialect.full.name ++ "] [possible values: "
      ++ ", ".intercalate ([Dialect.full, .loop].map Dialect.name) ++ "]"
  | param .maxSteps => "Interpreter step limit (finite positive number)"
  | switch .all => "Process every file under origin/"
  | switch .asm => "Also generate toy-machine assembly"
  | switch .noSave => "Do not write artifacts to disk"
  | switch (.reveal .tokens) => "Print the token stream"
  | switch (.reveal .program) => "Print the AST as JSON"
  | switch (.reveal .python) => "Print the Python text"
  | switch (.reveal .wat) => "Print the WebAssembly text"
  | switch (.hide _) => ""
  | notice .help => "Print help"
  | notice .version => "Print version"

def shortUsage : Argument → String
  | notice n => "-" ++ n.letter.toString ++ ", "
  | _ => "    "

-- The line of the help about an argument.
def helpLine (a : Argument) : String :=
  "  " ++ a.shortUsage ++ String.ofList (a.usage.toList.rightpad 21 ' ') ++ a.purpose

end Argument

-- The texts that answer a request for a notice.
def Notice.text : Notice → String
  | help =>
    lines <|
      ["Lex, parse, trace and transpile whilelang programs", "",
        "Usage: whilelang-cli [OPTIONS] [FILE]", "",
        "Arguments:", "  [FILE]  " ++ (Argument.param .file).purpose, "",
        "Options:"] ++ Argument.named.map Argument.helpLine
  | version => lines [versionLine]

end CommandLine

end Imp
