import Tokenizer.Pattern
import Tokenizer.CharClass

/-! Patterns of strings and character literals. -/
namespace Tokenizer.Pattern

open CharClass

def doubleQuote : Pattern := char '"'

def singleQuote : Pattern := char '\''

def backslash : Pattern := char '\\'

/-- What may follow a backslash: a letter or quote, or a letter and its hexadecimal digits. -/
def escapeBody : Pattern :=
  oneOf ['a', 'b', 'f', 'n', 'r', 't', 'v', '\\', '"', '\'']
    |>.orElse (char 'x' ++ one isHexDigit ++ upTo isHexDigit 3)
    |>.orElse (char 'u' ++ exactly isHexDigit 4)
    |>.orElse (char 'U' ++ exactly isHexDigit 8)

def escape : Pattern := backslash ++ escapeBody

/-- A backslash and any character of the same line. -/
def anyEscape : Pattern := backslash ++ one (!isLineBreak ·) .whole

/-- Text of a string between escapes, line breaks included. -/
def stringText : Pattern := run1 fun c => c != '\\' && c != '"'

def stringLineText : Pattern := run1 fun c => c != '\\' && c != '"' && !isLineBreak c

/--
A string that its line does not close: a quote, and text and escaped characters up to the end of
the line. A backslash at the end of the line escapes nothing, so then there is no match.
-/
def unterminatedString : Pattern :=
  doubleQuote ++ many (stringLineText.orElse anyEscape) ++ notBefore (!isLineBreak ·)

/-- One character between single quotes: no quote, no backslash and no line break. -/
def charLiteral : Pattern :=
  singleQuote ++ one (fun c => c != '\\' && c != '\'' && !isLineBreak c) .whole ++ singleQuote

def charEscapeLiteral : Pattern := singleQuote ++ escape ++ singleQuote

end Tokenizer.Pattern
