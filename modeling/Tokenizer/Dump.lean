import Tokenizer.Scan
import Tokenizer.Text.Quoted

/-! The dump of a source: every token on a line of its own, white space included. -/
namespace Tokenizer.Dump

/-- The line of a token: its category, its span and its text. -/
def line (t : Token) : List Char :=
  "  ".toList ++ t.category.label.toList ++ " @ ".toList ++ t.span.text.toList ++ [' '] ++
    Text.quoted t.text ++ ['\n']

/-- The first line names the file and counts its tokens. -/
def header (path : String) (count : Nat) : List Char :=
  "Tokens for '".toList ++ path.toList ++ "' (".toList ++ (toString count).toList ++
    " tokens):\n".toList

/-- The last line of a source that ends inside a region names the modes it ends in. -/
def footer (modes : ModeStack) : List Char :=
  if modes.isRoot then []
  else
    "  (input ends in modes ".toList ++ (" > ".intercalate modes.names).toList ++ ")\n".toList

def render (path : String) (source : List Char) : String :=
  let ts := tokens {} source
  String.ofList (header path ts.length ++ ts.flatMap line ++ footer (finalModes {} source))

end Tokenizer.Dump
