import Tokenizer.Pattern
import Tokenizer.CharClass

/-! Patterns of names, symbols and punctuation. -/
namespace Tokenizer.Pattern

open CharClass

def identifier : Pattern := one isIdentifierStart ++ run isIdentifierPart

/-- A bracket other than an angle bracket. -/
def bracket : Pattern := oneOf ['\x7b', '\x7d', '(', ')', '[', ']']

/-- A `<` or `>` that no symbol follows. -/
def loneAngle : Pattern := oneOf ['<', '>'] ++ notBefore isSymbol

def symbolRun : Pattern := run1 isSymbol

/-- An `@` and an identifier, with nothing but spaces and tabs between them. -/
def annotationName : Pattern := char '@' ++ run isHorizontalSpace ++ identifier

def punctuation : Pattern := oneOf [';', ',', '.']

end Tokenizer.Pattern
