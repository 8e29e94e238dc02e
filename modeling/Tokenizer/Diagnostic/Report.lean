import Tokenizer.Diagnostic.Collect
import Tokenizer.Text.Position

/-! Reports: diagnostics for readers, who count lines and characters and not bytes. -/
namespace Tokenizer

/-- A diagnostic as it is shown to a reader. -/
structure Report where
  path : String
  /-- What is wrong. -/
  message : String
  /-- The line and column at which the fault starts. -/
  position : Text.Position
  /-- The characters at fault: the index of the first, and the index just past the last. -/
  range : Nat × Nat
  /-- What is said at the fault. -/
  label : String
  /-- How the fault may be mended. -/
  help? : Option String
deriving DecidableEq, Repr

namespace Report

def ofDiagnostic (path : String) (source : List Char) (d : Diagnostic) : Report :=
  let first := Text.charsBefore d.span.start source
  { path
    message := d.cause.message
    position := .ofIndex first source
    range := (first, Text.charsBefore d.span.stop source)
    label := d.context.describe
    help? :=
      if d.suggestions.isEmpty then none
      else some ("; ".intercalate (d.suggestions.map Suggestion.message)) }

def location (r : Report) : String :=
  s!"{r.path}:{r.position.line}:{r.position.column}"

def render (r : Report) : String :=
  let help := match r.help? with
    | some help => "  help: " ++ help ++ "\n"
    | none => ""
  "Error: " ++ r.message ++ "\n  at " ++ r.location ++ "\n  " ++ r.label ++ "\n" ++ help

end Report

def reports (path : String) (source : List Char) (ds : List Diagnostic) : List Report :=
  ds.map (Report.ofDiagnostic path source)

end Tokenizer
