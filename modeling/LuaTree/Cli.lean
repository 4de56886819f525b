import LuaTree.Grammar.Parse
import LuaTree.Outline
import LuaTree.Render
import LuaTree.Text.Align

/-!
# The command line

Arguments are read from left to right; of several modes or files the last one
counts. Everything the program prints is computed here from the arguments and
the contents of files.
-/

namespace LuaTree.Cli

/-- What to do with the file. -/
inductive Mode where
  | explore | tokens | outline | emit
deriving DecidableEq, Repr, Inhabited

structure Request where
  mode : Mode := .explore
  semicolons : Bool := false
  file : Option String := none
deriving DecidableEq, Repr

/-- What the arguments ask for. -/
inductive Command where
  | run (request : Request)
  | help
  | unknownOption (flag : String)
deriving DecidableEq, Repr

/-- Read the arguments that follow those of a request. Asking for help, or an unknown option, ends
the reading. -/
def command (request : Request) : List String → Command
  | [] => .run request
  | arg :: args =>
    match arg with
    | "--tokens" => command { request with mode := .tokens } args
    | "--outline" => command { request with mode := .outline } args
    | "--emit" => command { request with mode := .emit } args
    | "--semicolons" => command { request with semicolons := true } args
    | "-h" | "--help" => .help
    | _ =>
      if arg.startsWith "--" then .unknownOption arg
      else command { request with file := some arg } args

/-- What the program writes, and its exit code. -/
structure Outcome where
  stdout : String := ""
  stderr : String := ""
  exitCode : Nat := 0
deriving DecidableEq, Repr

/-- What stands under the name of a file. -/
inductive Entry where
  | missing
  | directory
  | file (contents : String)
deriving DecidableEq, Repr, Inhabited

/-- The end of a run, or the explorer that it opens. -/
inductive Result where
  | done (outcome : Outcome)
  | explore (arena : Arena) (source : String)

def usage (program : String) : String :=
  "Usage: " ++ program ++ " [--tokens | --outline | --emit [--semicolons]] <file.lua>\n" ++
  "\n" ++
  "Modes:\n" ++
  "  (none)        Open the interactive syntax tree explorer\n" ++
  "  --tokens      Print the token stream\n" ++
  "  --outline     Print the syntax tree with source positions\n" ++
  "  --emit        Print source regenerated from the syntax tree\n" ++
  "  --semicolons  With --emit, terminate every statement with ';'\n"

def failure (message : String) : Result :=
  .done { stderr := message, exitCode := 1 }

/-- A token on a line of the listing. -/
def tokenLine (token : Token) : String :=
  Text.alignRight 7 token.span.start.text ++ "  " ++ Text.alignLeft 12 token.kind.name ++ " " ++
    token.lexeme ++ "\n"

/-- Do what is asked with a source text. -/
def process (request : Request) (source : String) : Result :=
  match request.mode with
  | .tokens => .done { stdout := String.join ((tokenize source).map tokenLine) }
  | mode =>
    match build source with
    -- The nodes of a program are never refused.
    | .error problem => failure ("Error: " ++ problem.message ++ "\n")
    | .ok (.error e) => failure ("Parser error: " ++ e.text ++ "\n")
    | .ok (.ok arena) =>
      match mode, arena.root with
      | .outline, some root => .done { stdout := arena.outline root true }
      | .emit, some root =>
        .done { stdout := arena.render root { semicolons := request.semicolons } }
      | _, _ => .explore arena source

/-- What is said of a file that is a directory. -/
def directoryError : String :=
  "Error: Os \x7b code: 21, kind: IsADirectory, message: \"Is a directory\" \x7d\n"

/-- A run of the program; `entry` gives what stands under a name. -/
def run (program : String) (args : List String) (entry : String → Entry) : Result :=
  match command {} args with
  | .help => .done { stderr := usage program }
  | .unknownOption flag => failure ("Error: Unknown option '" ++ flag ++ "'\n" ++ usage program)
  | .run request =>
    match request.file with
    | none => failure ("Error: No input file provided\n\n" ++ usage program)
    | some file =>
      match entry file with
      | .missing => failure ("Error: File '" ++ file ++ "' not found\n")
      | .directory => failure directoryError
      | .file source => process request source

end LuaTree.Cli
