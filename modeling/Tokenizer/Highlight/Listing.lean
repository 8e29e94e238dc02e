import Tokenizer.Highlight
import Tokenizer.Text.Blank

/-! Highlights written out, as aligned text or as JSON. -/
namespace Tokenizer

inductive Format where
  /-- A line for each stretch: its span, its scope and its text. -/
  | text
  /-- An array of objects. -/
  | json
deriving DecidableEq, Repr, Inhabited

def Format.label : Format → String
  | text => "Text"
  | json => "Json"

namespace Highlight

/-- The line of a stretch: its span in a column of 10, its scope in one of 28, and its text. -/
def line (l : Language) (t : Token) : List Char :=
  Text.padTo 10 t.span.text.toList ++ [' '] ++ Text.padTo 28 (l.scope t.category).toList ++ [' '] ++
    Text.quoted t.text

/-- The stretches as lines. White space at the very end is dropped. -/
def renderText (l : Language) (ts : List Token) : String :=
  String.ofList (Text.trimEnd (ts.flatMap fun t => line l t ++ ['\n']))

def jsonChar (c : Char) : List Char :=
  if c == '"' || c == '\\' then ['\\', c]
  else if c == '\x08' then ['\\', 'b']
  else if c == '\x0c' then ['\\', 'f']
  else if c == '\n' then ['\\', 'n']
  else if c == '\r' then ['\\', 'r']
  else if c == '\t' then ['\\', 't']
  else if c.toNat < 0x10 then ['\\', 'u', '0', '0', '0'] ++ Nat.toDigits 16 c.toNat
  else if c.toNat < 0x20 then ['\\', 'u', '0', '0'] ++ Nat.toDigits 16 c.toNat
  else [c]

def jsonString (s : String) : String :=
  String.ofList ('"' :: (s.toList.flatMap jsonChar ++ ['"']))

/-- A scoped span as an object, one field to a line. -/
def jsonObject (s : ScopedSpan) : String :=
  "  \x7b\n" ++
  "    \"start\": " ++ toString s.span.start ++ ",\n" ++
  "    \"end\": " ++ toString s.span.stop ++ ",\n" ++
  "    \"scope\": " ++ jsonString s.scope ++ "\n" ++
  "  \x7d"

def renderJson (spans : List ScopedSpan) : String :=
  if spans.isEmpty then "[]"
  else "[\n" ++ ",\n".intercalate (spans.map jsonObject) ++ "\n]"

def render (l : Language) (format : Format) (source : List Char) : String :=
  match format with
  | .text => renderText l (highlight source)
  | .json => renderJson (scopedSpans l source)

end Highlight
end Tokenizer
