import Tokenizer.Text.Combining

/-!
Quoted text: a text between double quotes on one line. Quotes and backslashes are escaped, and so
is every character that a page would not show as a character of its own.
-/
namespace Tokenizer.Text

/-- A character written as its code point in hexadecimal. -/
def codePoint (c : Char) : List Char :=
  ['\\', 'u', '\x7b'] ++ Nat.toDigits 16 c.toNat ++ ['\x7d']

def quotedChar (c : Char) : List Char :=
  if c == '"' || c == '\\' then ['\\', c]
  else if c == '\n' then ['\\', 'n']
  else if c == '\r' then ['\\', 'r']
  else if c == '\t' then ['\\', 't']
  else if c == '\x00' then ['\\', '0']
  else if isCombining c || !isPrintable c then codePoint c
  else [c]

/-- How a character is written on its own, where single quotes are escaped as well. -/
def escapedChar (c : Char) : List Char :=
  if c == '\'' then ['\\', c] else quotedChar c

def quoted (cs : List Char) : List Char :=
  '"' :: (cs.flatMap quotedChar ++ ['"'])

def quote (s : String) : String := String.ofList (quoted s.toList)

/-- Texts between double quotes, as a list in square brackets. -/
def quoteList (ss : List String) : String := "[" ++ ", ".intercalate (ss.map quote) ++ "]"

end Tokenizer.Text
