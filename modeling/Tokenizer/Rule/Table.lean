import Tokenizer.Pattern.Code
import Tokenizer.Pattern.Comment
import Tokenizer.Pattern.Literal
import Tokenizer.Pattern.Number
import Tokenizer.Rule

/-!
The rules of each mode, in order of priority: the first rule that matches wins, so the order is
part of the definition of the language.

* Comment openers come before runs of symbols, which would take their slashes and stars.
* A lone angle bracket comes before runs of symbols, of which it would be one.
* A number that goes on comes before the shorter numbers it starts with, and every number comes
  before punctuation.
* A string that its line does not close comes before the quote that opens a string.
-/
namespace Tokenizer

/-- White space and comment openers. -/
def whitespaceRules : List Rule :=
  [⟨"whitespace", .whitespace, .emit .whitespace, .stay⟩,
    ⟨"doc.open", .docCommentOpen, .emit .docComment, .push .docComment⟩,
    ⟨"comment.open", .blockCommentOpen, .emit .blockComment, .push .blockComment⟩,
    ⟨"comment.line", .lineComment, .emit .lineComment, .stay⟩]

def numberRules : List Rule :=
  [⟨"float.scientific", .scientificFloat, .emit .float, .stay⟩,
    ⟨"float.decimal", .decimalFloat, .emit .float, .stay⟩,
    ⟨"hex", .hexNumber, .emit .hex, .stay⟩,
    ⟨"octal", .octalNumber, .emit .octal, .stay⟩,
    ⟨"binary", .binaryNumber, .emit .binary, .stay⟩,
    ⟨"float.suffixed", .suffixedFloat, .emit .float, .stay⟩,
    ⟨"integer", .integer, .emit .integer, .stay⟩]

def quoteRules : List Rule :=
  [⟨"string.unterminated", .unterminatedString, .emit .stringInvalid, .stay⟩,
    ⟨"string.open", .doubleQuote, .emit .string, .push .string⟩,
    ⟨"char", .charLiteral, .emit .char, .stay⟩,
    ⟨"char.escape", .charEscapeLiteral, .enclosed .char .stringEscape, .stay⟩,
    ⟨"char.invalid", .singleQuote, .emit .charInvalid, .stay⟩]

def rootRules : List Rule :=
  [⟨"identifier", .identifier, .classify .identifierLike, .stay⟩] ++
  whitespaceRules ++
  [⟨"bracket", .bracket, .classify .bracket, .stay⟩,
    ⟨"angle", .loneAngle, .classify .bracket, .stay⟩,
    ⟨"symbols", .symbolRun, .classify .symbolRun, .stay⟩,
    ⟨"annotation", .annotationName, .emit .annotationName, .stay⟩] ++
  numberRules ++
  [⟨"punctuation", .punctuation, .emit .delimiter, .stay⟩] ++
  quoteRules

def blockCommentRules : List Rule :=
  [⟨"comment.text", .commentText, .emit .blockComment, .stay⟩,
    ⟨"comment.close", .commentClose, .emit .blockComment, .pop⟩,
    ⟨"comment.symbol", .commentSymbol, .emit .blockComment, .stay⟩]

def docCommentRules : List Rule :=
  [⟨"doc.text", .commentText, .emit .docComment, .stay⟩,
    ⟨"doc.nested", .blockCommentOpen, .emit .docCommentInvalid, .stay⟩,
    ⟨"doc.close", .commentClose, .emit .docComment, .pop⟩,
    ⟨"doc.symbol", .commentSymbol, .emit .docComment, .stay⟩]

def stringRules : List Rule :=
  [⟨"string.text", .stringText, .emit .string, .stay⟩,
    ⟨"string.escape", .escape, .emit .stringEscape, .stay⟩,
    ⟨"string.escape.invalid", .anyEscape, .emit .stringEscapeInvalid, .stay⟩,
    ⟨"string.close", .doubleQuote, .emit .string, .pop⟩]

/-- The rules of a mode in order of priority. -/
def Mode.rules : Mode → List Rule
  | root => rootRules
  | whitespace => whitespaceRules
  | inside .blockComment => blockCommentRules
  | inside .docComment => docCommentRules
  | inside .string => stringRules

end Tokenizer
