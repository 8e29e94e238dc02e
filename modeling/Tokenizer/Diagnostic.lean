import Tokenizer.Span
import Tokenizer.Text.Quoted

/-!
Diagnostics. A scan never fails; what is wrong with a source is said by diagnostics. Each one
names the place, the cause, the surroundings and ways to mend the source.
-/
namespace Tokenizer

inductive Cause where
  /-- A string that its line, or the source, does not close. -/
  | unterminatedString
  /-- A comment that the source does not close. -/
  | unterminatedComment
  /-- A single quote that starts no character literal. -/
  | invalidCharLiteral
  /-- A backslash and a character that make no escape sequence. -/
  | invalidEscape (escape : Char)
  /-- A character that no rule accepts. -/
  | unrecognizedCharacter (found : Char)
  /-- A comment opener inside a doc comment. -/
  | nestedDocComment
deriving DecidableEq, Repr

namespace Cause

def label : Cause → String
  | unterminatedString => "UnterminatedString"
  | unterminatedComment => "UnterminatedComment"
  | invalidCharLiteral => "InvalidCharLiteral"
  | invalidEscape _ => "InvalidEscape"
  | unrecognizedCharacter _ => "UnrecognizedCharacter"
  | nestedDocComment => "NestedDocComment"

/-- The character that the cause is about. -/
def char? : Cause → Option Char
  | invalidEscape c | unrecognizedCharacter c => some c
  | _ => none

def message : Cause → String
  | unterminatedString => "unterminated string literal"
  | unterminatedComment => "unterminated block comment"
  | invalidCharLiteral => "invalid character literal"
  | invalidEscape c => "unknown escape sequence `\\" ++ String.ofList [c] ++ "`"
  | unrecognizedCharacter c =>
    "unrecognized character `" ++ String.ofList (Text.escapedChar c) ++ "`"
  | nestedDocComment => "block comment opened inside a doc comment"

end Cause

/-- The surroundings of a fault; a region is given by the offset at which it was opened. -/
inductive Context where
  | topLevel
  | insideString (start : Nat)
  | insideChar
  | insideComment (start : Nat)
  | insideDocComment (start : Nat)
deriving DecidableEq, Repr, Inhabited

namespace Context

def label : Context → String
  | topLevel => "TopLevel"
  | insideString _ => "InsideString"
  | insideChar => "InsideChar"
  | insideComment _ => "InsideComment"
  | insideDocComment _ => "InsideDocComment"

/-- The offset at which the surrounding region was opened. -/
def start? : Context → Option Nat
  | insideString start | insideComment start | insideDocComment start => some start
  | topLevel | insideChar => none

def describe : Context → String
  | topLevel => "while scanning code"
  | insideString _ => "while scanning a string literal"
  | insideChar => "while scanning a character literal"
  | insideComment _ => "while scanning a block comment"
  | insideDocComment _ => "while scanning a doc comment"

end Context

/-- A change to a source: what `span` covers is replaced by `text`. -/
structure Edit where
  span : Span
  text : List Char
deriving DecidableEq, Repr

/-- The source after the edit, if the ends of its span fall between characters. -/
def Edit.apply? (e : Edit) (source : List Char) : Option (List Char) := do
  let length ← e.span.length?
  let (before, rest) ← Text.cut? e.span.start source
  let (_, after) ← Text.cut? length rest
  return before ++ e.text ++ after

/-- A way to mend a source. The lower the priority, the likelier it helps. -/
structure Suggestion where
  message : String
  edit? : Option Edit
  priority : Nat
deriving DecidableEq, Repr

namespace Suggestion

def advice (message : String) (priority : Nat) : Suggestion := ⟨message, none, priority⟩

def replacement (message : String) (span : Span) (text : List Char) : Suggestion :=
  ⟨message, some ⟨span, text⟩, 0⟩

def removal (message : String) (span : Span) : Suggestion := replacement message span []

def insertion (message : String) (offset : Nat) (text : List Char) : Suggestion :=
  replacement message (.point offset) text

end Suggestion

/-- A fault of a source. -/
structure Diagnostic where
  span : Span
  cause : Cause
  context : Context
  suggestions : List Suggestion
deriving DecidableEq, Repr

namespace Diagnostic

/-- A string that runs to the end of its line, or of the source. -/
def unterminatedString (span : Span) : Diagnostic :=
  ⟨span, .unterminatedString, .insideString span.start,
    [.insertion "add closing `\"`" span.stop ['"']]⟩

def unterminatedComment (span : Span) : Diagnostic :=
  ⟨span, .unterminatedComment, .insideComment span.start,
    [.insertion "add closing `*/`" span.stop ['*', '/']]⟩

def unterminatedDocComment (span : Span) : Diagnostic :=
  { unterminatedComment span with context := .insideDocComment span.start }

/-- A stray single quote. -/
def invalidCharLiteral (span : Span) : Diagnostic :=
  ⟨span, .invalidCharLiteral, .insideChar,
    [.advice "a character literal holds exactly one character or escape; use `\"` for text" 0]⟩

def validEscapes : String :=
  "valid escapes are \\a \\b \\f \\n \\r \\t \\v \\\\ \\\" \\', " ++
    "\\x with 1-4 hex digits, \\u with 4, \\U with 8"

/-- An unknown escape in the string that was opened at `start`. -/
def invalidEscape (span : Span) (escape : Char) (start : Nat) : Diagnostic :=
  ⟨span, .invalidEscape escape, .insideString start,
    [.advice validEscapes 1,
      .replacement "escape the backslash to keep it literally" ⟨span.start, span.start + 1⟩
        ['\\', '\\']]⟩

/-- An unknown escape, if the offset after its backslash is one that a span may hold. -/
def invalidEscape? (span : Span) (escape : Char) (start : Nat) : Option Diagnostic :=
  if span.start + 1 ≤ Span.maxOffset then some (invalidEscape span escape start) else none

def unrecognizedCharacter (span : Span) (found : Char) : Diagnostic :=
  ⟨span, .unrecognizedCharacter found, .topLevel, [.removal "remove this character" span]⟩

/-- A comment opener in the doc comment that was opened at `start`. -/
def nestedDocComment (span : Span) (start : Nat) : Diagnostic :=
  ⟨span, .nestedDocComment, .insideDocComment start,
    [.advice "comments do not nest; close the doc comment with `*/` first" 0]⟩

def withContext (d : Diagnostic) (context : Context) : Diagnostic := { d with context }

end Diagnostic
end Tokenizer
