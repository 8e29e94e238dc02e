/-! Classes of characters. All of them lie inside ASCII; any other character is outside. -/
namespace Tokenizer.CharClass

/-- Starts an identifier: a letter, `_` or `$`. -/
def isIdentifierStart (c : Char) : Bool := c.isAlpha || c == '_' || c == '$'

/-- Continues an identifier: a letter, a digit, `_` or `$`. -/
def isIdentifierPart (c : Char) : Bool := c.isAlphanum || c == '_' || c == '$'

/-- Occurs in runs of symbols. -/
def isSymbol (c : Char) : Bool :=
  ['=', '>', '<', '!', '~', '?', ':', '&', '|', '+', '-', '*', '/', '^', '%'].contains c

def isHexDigit (c : Char) : Bool :=
  c.isDigit || ('a' ≤ c && c ≤ 'f') || ('A' ≤ c && c ≤ 'F')

def isOctalDigit (c : Char) : Bool := '0' ≤ c && c ≤ '7'

def isBinaryDigit (c : Char) : Bool := c == '0' || c == '1'

def isLineBreak (c : Char) : Bool := c == '\n' || c == '\r'

def isHorizontalSpace (c : Char) : Bool := c == ' ' || c == '\t'

/-- White space of the language: spaces, tabs and line breaks. -/
def isSpace (c : Char) : Bool := isHorizontalSpace c || isLineBreak c

end Tokenizer.CharClass
