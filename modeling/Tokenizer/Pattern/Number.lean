import Tokenizer.Pattern
import Tokenizer.CharClass

/-! Patterns of numbers. Underscores may stand between the digits of a number, not at its ends. -/
namespace Tokenizer.Pattern

open CharClass

/-- Groups of digits with underscores between them. Underscores after the last group are left. -/
def digits (isDigit : Char → Bool) : Pattern :=
  run1 isDigit ++ many (run1 (· == '_') ++ run1 isDigit)

def decimalDigits : Pattern := digits Char.isDigit

def signedDigits : Pattern := optional (oneOf ['+', '-']) ++ decimalDigits

def exponentMark : Pattern := oneOf ['e', 'E']

def floatMark : Pattern := oneOf ['f', 'F', 'd', 'D']

def longMark : Pattern := oneOf ['l', 'L']

/-- Digits and an exponent mark. The exponent itself may be missing. -/
def scientificFloat : Pattern :=
  decimalDigits ++ exponentMark ++ optional signedDigits ++ optional floatMark

/-- Digits, a point and digits, then perhaps an exponent, which here needs its digits. -/
def decimalFloat : Pattern :=
  decimalDigits ++ char '.' ++ decimalDigits ++ optional (exponentMark ++ signedDigits) ++
    optional floatMark

def hexNumber : Pattern :=
  char '0' ++ oneOf ['x', 'X'] ++ digits isHexDigit ++ optional longMark

def octalNumber : Pattern := char '0' ++ digits isOctalDigit ++ optional longMark

def binaryNumber : Pattern :=
  char '0' ++ oneOf ['b', 'B'] ++ digits isBinaryDigit ++ optional longMark

def suffixedFloat : Pattern := decimalDigits ++ floatMark

def integer : Pattern := decimalDigits ++ optional longMark

end Tokenizer.Pattern
