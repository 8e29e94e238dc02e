import Tokenizer.Scan

/-!
Documents read one line at a time. Each line starts in the modes in which the line before it
ended, so an editor can read the lines that changed and no others.
-/
namespace Tokenizer

/-- The tokens of a line, placed from the start of that line, and the modes it ends in. -/
structure Line where
  tokens : List Token
  modes : ModeStack
deriving DecidableEq, Repr

def Line.read (modes : ModeStack) (text : List Char) : Line :=
  ⟨Tokenizer.tokens modes text, finalModes modes text⟩

def Line.readAll : ModeStack → List (List Char) → List Line
  | _, [] => []
  | modes, text :: texts =>
    let line := read modes text
    line :: readAll line.modes texts

end Tokenizer
