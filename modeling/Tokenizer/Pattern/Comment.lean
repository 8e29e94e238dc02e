import Tokenizer.Pattern
import Tokenizer.CharClass

/-! Patterns of white space and comments. -/
namespace Tokenizer.Pattern

open CharClass

def whitespace : Pattern := run1 isSpace

/-- The opener of a doc comment. One that is closed at once opens a plain comment instead. -/
def docCommentOpen : Pattern := literal ['/', '*', '*'] ++ notBefore (· == '/')

def blockCommentOpen : Pattern := literal ['/', '*']

def lineComment : Pattern := literal ['/', '/'] ++ run (!isLineBreak ·)

/-- Text of a comment without slashes and stars. -/
def commentText : Pattern := run1 fun c => c != '/' && c != '*'

def commentClose : Pattern := literal ['*', '/']

def commentSymbol : Pattern := oneOf ['/', '*']

end Tokenizer.Pattern
