import Tokenizer.Category
import Tokenizer.Text.Width

/-!
The words of the language. A lexeme's shape alone does not always decide its category: a word may
be reserved, and a run of symbols may or may not be an operator. Hosts ask for the tables of these
words. A look-up does not go through a table, it compares a text with the words of its own width.
-/
namespace Tokenizer

def keywords : List String := ["fn", "if", "else", "true", "false", "print"]

/-- The runs of symbols that are operators. -/
def operators : List String :=
  ["=", ">", "<", "==", "<=", ">=", "&&", "||", "+", "-", "*", "/"]

/-- The keyword spelled `text`. Keywords are two to five bytes wide. -/
def Keyword.find? (text : List Char) : Option Keyword :=
  match Text.width text with
  | 2 =>
    match text with
    | ['f', 'n'] => some .fnWord
    | ['i', 'f'] => some .ifWord
    | _ => none
  | 4 =>
    match text with
    | ['e', 'l', 's', 'e'] => some .elseWord
    | ['t', 'r', 'u', 'e'] => some .trueWord
    | _ => none
  | 5 =>
    match text with
    | ['f', 'a', 'l', 's', 'e'] => some .falseWord
    | ['p', 'r', 'i', 'n', 't'] => some .printWord
    | _ => none
  | _ => none

def isOperator (text : List Char) : Bool :=
  match Text.width text with
  | 1 =>
    match text with
    | ['='] | ['>'] | ['<'] | ['+'] | ['-'] | ['*'] | ['/'] => true
    | _ => false
  | 2 =>
    match text with
    | ['=', '='] | ['<', '='] | ['>', '='] | ['&', '&'] | ['|', '|'] => true
    | _ => false
  | _ => false

/-- The pair that the one-character text belongs to. -/
def Bracket.find? : List Char → Option Bracket
  | ['\x7b'] | ['\x7d'] => some .curly
  | ['('] | [')'] => some .paren
  | ['['] | [']'] => some .square
  | ['<'] | ['>'] => some .angle
  | _ => none

/-- A shape of lexeme that leaves the category open. -/
inductive Shape where
  /-- A letter, `_` or `$`, then letters, digits, `_` and `$`. -/
  | identifierLike
  /-- A run of symbol characters. -/
  | symbolRun
  /-- A single bracket. -/
  | bracket
deriving DecidableEq, Repr

namespace Shape

def label : Shape → String
  | identifierLike => "IdentifierLike"
  | symbolRun => "SymbolRun"
  | bracket => "Bracket"

def classify (text : List Char) : Shape → Category
  | identifierLike =>
    match Keyword.find? text with
    | some word => .keyword word
    | none => .identifier
  | symbolRun => if isOperator text then .operator else .delimiter
  | bracket =>
    match Bracket.find? text with
    | some kind => .bracket kind
    | none => .delimiter

end Shape
end Tokenizer
