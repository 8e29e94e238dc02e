/-!
The closed set of categories that a stretch of source can have, with the dotted scope names that
colour themes select by.
-/
namespace Tokenizer

inductive Keyword where
  | fnWord
  | ifWord
  | elseWord
  | trueWord
  | falseWord
  | printWord
deriving DecidableEq, Repr

namespace Keyword

def all : List Keyword := [fnWord, ifWord, elseWord, trueWord, falseWord, printWord]

def spelling : Keyword → String
  | fnWord => "fn"
  | ifWord => "if"
  | elseWord => "else"
  | trueWord => "true"
  | falseWord => "false"
  | printWord => "print"

/-- The name of the keyword in listings. -/
def label : Keyword → String
  | fnWord => "Fn"
  | ifWord => "If"
  | elseWord => "Else"
  | trueWord => "True"
  | falseWord => "False"
  | printWord => "Print"

theorem mem_all (k : Keyword) : k ∈ all := by
  cases k <;> decide

end Keyword

/-- The pair a bracket belongs to. -/
inductive Bracket where
  | curly
  | paren
  | square
  /-- A `<` or `>` that stands alone. -/
  | angle
deriving DecidableEq, Repr

namespace Bracket

def all : List Bracket := [curly, paren, square, angle]

def label : Bracket → String
  | curly => "Curly"
  | paren => "Paren"
  | square => "Square"
  | angle => "Angle"

/-- The last part of the scope name. -/
def scopePart : Bracket → String
  | curly => "curly"
  | paren => "parenthesis"
  | square => "square"
  | angle => "angle"

theorem mem_all (b : Bracket) : b ∈ all := by
  cases b <;> decide

end Bracket

/-- What a stretch of source is, as far as colouring is concerned. -/
inductive Category where
  | identifier
  | keyword (word : Keyword)
  /-- A run of symbols that is an operator of the language. -/
  | operator
  /-- Punctuation, or a run of symbols that is no operator. -/
  | delimiter
  | bracket (kind : Bracket)
  /-- A name marked with `@`. -/
  | annotationName
  | integer
  | float
  | hex
  | octal
  | binary
  /-- The quotes and the plain text of a string. -/
  | string
  /-- An escape sequence in a string or character literal. -/
  | stringEscape
  /-- A backslash and a character that make no escape sequence. -/
  | stringEscapeInvalid
  /-- A string that its line does not close. -/
  | stringInvalid
  | char
  /-- A single quote that starts no character literal. -/
  | charInvalid
  | lineComment
  | blockComment
  | docComment
  /-- A comment opener inside a doc comment, where comments do not nest. -/
  | docCommentInvalid
  /-- Spaces, tabs and line breaks. -/
  | whitespace
  /-- A character that nothing in its surroundings accepts. -/
  | invalid
deriving DecidableEq, Repr

namespace Category

def all : List Category :=
  [identifier] ++ Keyword.all.map keyword ++ [operator, delimiter] ++ Bracket.all.map bracket ++
    [annotationName, integer, float, hex, octal, binary, string, stringEscape, stringEscapeInvalid,
      stringInvalid, char, charInvalid, lineComment, blockComment, docComment, docCommentInvalid,
      whitespace, invalid]

/--
The dotted scope name. Names are hierarchical, so a theme that colours `string` also colours
`string.escape`.
-/
def scope : Category → String
  | identifier => "identifier"
  | keyword word => "keyword." ++ word.spelling
  | operator => "operator"
  | delimiter => "delimiter"
  | bracket kind => "delimiter." ++ kind.scopePart
  | annotationName => "annotation"
  | integer => "number.integer"
  | float => "number.float"
  | hex => "number.hex"
  | octal => "number.octal"
  | binary => "number.binary"
  | string => "string"
  | stringEscape => "string.escape"
  | stringEscapeInvalid => "string.escape.invalid"
  | stringInvalid => "string.invalid"
  | char => "string.char"
  | charInvalid => "string.char.invalid"
  | lineComment => "comment.line"
  | blockComment => "comment.block"
  | docComment => "comment.doc"
  | docCommentInvalid => "comment.doc.invalid"
  | whitespace => "whitespace"
  | invalid => "invalid"

def label : Category → String
  | identifier => "Identifier"
  | keyword word => "Keyword(" ++ word.label ++ ")"
  | operator => "Operator"
  | delimiter => "Delimiter"
  | bracket kind => "Bracket(" ++ kind.label ++ ")"
  | annotationName => "Annotation"
  | integer => "Integer"
  | float => "Float"
  | hex => "Hex"
  | octal => "Octal"
  | binary => "Binary"
  | string => "String"
  | stringEscape => "StringEscape"
  | stringEscapeInvalid => "StringEscapeInvalid"
  | stringInvalid => "StringInvalid"
  | char => "Char"
  | charInvalid => "CharInvalid"
  | lineComment => "LineComment"
  | blockComment => "BlockComment"
  | docComment => "DocComment"
  | docCommentInvalid => "DocCommentInvalid"
  | whitespace => "Whitespace"
  | invalid => "Invalid"

def ofLabel? (name : String) : Option Category :=
  all.find? (·.label == name)

/-- A highlighter may drop this category. -/
def isTrivia : Category → Bool
  | whitespace => true
  | _ => false

theorem mem_all (c : Category) : c ∈ all := by
  cases c with
  | keyword word => cases word <;> decide
  | bracket kind => cases kind <;> decide
  | _ => decide

end Category
end Tokenizer
