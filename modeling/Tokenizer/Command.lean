import Tokenizer.Diagnostic.Report
import Tokenizer.Dump
import Tokenizer.FileTree
import Tokenizer.Log.Filter

/-!
The command line. Arguments are read into a command, and a command has an outcome: what is printed
and the exit status. The contents of the file that a command names are handed to it, so everything
here is a function of its inputs.
-/
namespace Tokenizer

/-- Why a command was given up. -/
inductive Failure where
  | notFound (path : String)
  | permissionDenied (path : String)
  | invalidUtf8 (path : String)
  | unknownLanguage (path : String)
  | read (path : String) (detail : String)
deriving DecidableEq, Repr

namespace Failure

def message : Failure → String
  | notFound path => "cannot find file '" ++ path ++ "'"
  | permissionDenied path => "permission denied reading '" ++ path ++ "'"
  | invalidUtf8 path => "'" ++ path ++ "' contains invalid UTF-8 data"
  | unknownLanguage path => "no registered language highlights '" ++ path ++ "'"
  | read path detail => "error reading '" ++ path ++ "': " ++ detail

def ofReadError (path : String) : ReadError → Failure
  | .notFound => notFound path
  | .permissionDenied => permissionDenied path
  | .other detail => read path detail

end Failure

def decodeFile (path : String) : Except ReadError (List UInt8) → Except Failure (List Char)
  | .error e => .error (.ofReadError path e)
  | .ok bytes =>
    match String.fromUTF8? (ByteArray.mk bytes.toArray) with
    | some text => .ok text.toList
    | none => .error (.invalidUtf8 path)

def Registry.languageFor (r : Registry) (path : String) : Except Failure Language :=
  match (Path.extension? path).bind r.forExtension? with
  | some language => .ok language
  | none => .error (.unknownLanguage path)

def leiaRegistry : Registry × List Event :=
  let (registration, registry) := Registry.register {} .leia
  (registry, [registration.event Language.leia.id])

/-- The language of a file among the languages that come with the program. -/
def languageFor (path : String) : Except Failure Language := leiaRegistry.1.languageFor path

/-- What a user can ask for. -/
inductive Command where
  | help
  | version
  | lex (path : String)
  | highlight (path : String) (format : Format)
  | check (path : String)
deriving DecidableEq, Repr

/-- Why arguments are no command. -/
inductive UsageError where
  | unknownCommand (name : String)
  | lexWithoutFile
  | highlightWithoutFile
  | checkWithoutFile
deriving DecidableEq, Repr

/-- What a run of the program leaves behind. -/
structure Outcome where
  status : Nat := 0
  stdout : String := ""
  stderr : String := ""
deriving DecidableEq, Repr

def version : String := "0.1.0"

def usage : String :=
  "Leia tokenizer\n\n" ++
  "Usage: leia <command> [options]\n\n" ++
  "Commands:\n" ++
  "  lex <file.leia>        Tokenize and display every token\n" ++
  "  highlight <file.leia>  Display highlight spans with scope names\n" ++
  "  check <file.leia>      Report lexical errors (exit 1 if any)\n" ++
  "  help                   Show this help message\n" ++
  "  version                Show version information\n\n" ++
  "Highlight options:\n" ++
  "  --json              Emit spans as a JSON array\n\n" ++
  "Logging:\n" ++
  "  RUST_LOG=leia_lexer=trace   Trace mode pushes and pops\n\n" ++
  "Examples:\n" ++
  "  leia lex fib.leia\n" ++
  "  leia highlight fib.leia --json\n" ++
  "  leia check fib.leia\n"

def UsageError.outcome : UsageError → Outcome
  | unknownCommand name =>
    { status := 1, stdout := usage, stderr := "Unknown command: " ++ name ++ "\n\n" }
  | lexWithoutFile => { status := 1, stderr := "Usage: leia lex <file.leia>\n" }
  | highlightWithoutFile =>
    { status := 1
      stderr := "error: missing file path\nUsage: leia highlight <file.leia> [--json]\n" }
  | checkWithoutFile => { status := 1, stderr := "Usage: leia check <file.leia>\n" }

namespace Command

/-- Reads arguments. No arguments ask for help, and arguments that are not needed are ignored. -/
def parse : List String → Except UsageError Command
  | [] => .ok help
  | name :: args =>
    match name with
    | "lex" => (args.head?.map lex).elim (.error .lexWithoutFile) .ok
    | "highlight" =>
      let format := if args.contains "--json" then Format.json else .text
      match args.find? fun arg => arg.toList.head? != some '-' with
      | some path => .ok (highlight path format)
      | none => .error .highlightWithoutFile
    | "check" => (args.head?.map check).elim (.error .checkWithoutFile) .ok
    | "help" | "--help" | "-h" => .ok help
    | "version" | "--version" | "-v" => .ok version
    | _ => .error (.unknownCommand name)

def path? : Command → Option String
  | lex path | highlight path _ | check path => some path
  | help | version => none

def checkSummary (path : String) (count : Nat) : String :=
  path ++ ": " ++ toString count ++ " lexical error" ++ (if count = 1 then "" else "s") ++ "\n"

/-- What a command reports when it is run on the text of its file. -/
def events (source : List Char) : Command → List Event
  | help | version => []
  | lex path => dumpEvents path source
  | highlight path format =>
    leiaRegistry.2 ++
      match languageFor path with
      | .ok language => highlightEvents language format source
      | .error _ => []
  | check path => scanEvents {} source ++ [.checked path (diagnose source).length]

/-- The outcome of a command on the text of its file, apart from the log. -/
def onText (source : List Char) : Command → Except Failure Outcome
  | help => .ok { stdout := usage }
  | version => .ok { stdout := "Leia tokenizer " ++ Tokenizer.version ++ "\n" }
  | lex path => .ok { stdout := Dump.render path source }
  | highlight path format => do
    let language ← languageFor path
    return { stdout := Highlight.render language format source ++ "\n" }
  | check path =>
    let faults := diagnose source
    if faults.isEmpty then
      .ok { stdout := path ++ ": no lexical errors\n" }
    else
      .ok
        { status := 1
          stderr :=
            String.join ((reports path source faults).map Report.render) ++
              checkSummary path faults.length }

def failed (e : Failure) : Outcome := { status := 1, stderr := "error: " ++ e.message ++ "\n" }

/-- The outcome of a command. The lines of the log that the filter asks for come first. -/
def outcome (filter? : Option Filter) (contents : Except Failure (List Char)) (c : Command) :
    Outcome :=
  match contents with
  | .error e => failed e
  | .ok source =>
    let log := filter?.elim "" (·.render (c.events source))
    let result := match c.onText source with
      | .ok result => result
      | .error e => failed e
    { result with stderr := log ++ result.stderr }

end Command

/--
The outcome of a run of the program. The text of the log filter is given if there is one, and
`read` gives the bytes of files. Complaints about the filter come before everything else.
-/
def run (logFilter? : Option String) (read : String → Except ReadError (List UInt8))
    (args : List String) : Outcome :=
  let result := match Command.parse args with
    | .error e => e.outcome
    | .ok c =>
      c.outcome (logFilter?.map Filter.parse)
        (c.path?.elim (.ok []) fun path => decodeFile path (read path))
  { result with stderr := logFilter?.elim "" Filter.complaints ++ result.stderr }

end Tokenizer
