import Tokenizer.Diagnostic
import Tokenizer.Scan

/-!
The faults of a source. Each token of an invalid category is a fault, and so is a region that is
still open where the source ends.
-/
namespace Tokenizer

/-- The offset at which the innermost region was opened, after a step; before it, `opened`. -/
def Step.openedAt (s : Step) (opened : Nat) : Nat :=
  if s.modes.depth < s.after.depth then s.start else opened

namespace Diagnostic

/-- The fault of a token scanned in `mode`, if its category is an invalid one. -/
def ofToken? (mode : Mode) (opened : Nat) (t : Token) : Option Diagnostic :=
  match t.category with
  | .stringInvalid => some (unterminatedString t.span)
  | .charInvalid => some (invalidCharLiteral t.span)
  | .stringEscapeInvalid => some (invalidEscape t.span ((t.text.drop 1).headD '\\') opened)
  | .docCommentInvalid => some (nestedDocComment t.span opened)
  | .invalid =>
    let fault := unrecognizedCharacter t.span (t.text.headD '\ufffd')
    some (if mode = .inside .string then fault.withContext (.insideString opened) else fault)
  | _ => none

/-- The faults of the tokens of some steps, before which the innermost region opened at `opened`. -/
def ofSteps : Nat → List Step → List Diagnostic
  | _, [] => []
  | opened, s :: taken =>
    s.tokens.filterMap (ofToken? s.mode (s.openedAt opened)) ++ ofSteps (s.openedAt opened) taken

/-- The fault of leaving a region open from the start of `span` to its end. -/
def unclosed (span : Span) : Region → Diagnostic
  | .string => unterminatedString span
  | .blockComment => unterminatedComment span
  | .docComment => unterminatedDocComment span

end Diagnostic

/-- The faults of a source, in the order of the source. -/
def diagnose (source : List Char) : List Diagnostic :=
  let taken := scan {} source
  let opened := taken.foldl (fun opened s => s.openedAt opened) 0
  let openRegion? := (endModes {} taken).regions.head?
  Diagnostic.ofSteps 0 taken ++
    (openRegion?.map (Diagnostic.unclosed ⟨opened, Text.width source⟩)).toList

end Tokenizer
