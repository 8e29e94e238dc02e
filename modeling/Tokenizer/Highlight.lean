import Tokenizer.Language
import Tokenizer.Scan

/-!
Highlights. An editor colours stretches, not tokens: the quote, the text and the closing quote of
a string are one stretch. White space has no colour.
-/
namespace Tokenizer

namespace Token

def joins (t u : Token) : Bool := t.category == u.category && t.stop == u.start

/-- Puts a token in front of stretches, as part of the first one if they join. -/
def joinTo (t : Token) : List Token → List Token
  | [] => [t]
  | u :: us => if t.joins u then { t with text := t.text ++ u.text } :: us else t :: u :: us

end Token

/-- Joins touching tokens of one category into stretches. -/
def coalesce (ts : List Token) : List Token := ts.foldr Token.joinTo []

def highlight (source : List Char) : List Token := coalesce (significant (tokens {} source))

/-- A stretch with the scope name that a theme colours it by. -/
structure ScopedSpan where
  span : Span
  scope : String
deriving DecidableEq, Repr

def Language.scoped (l : Language) (t : Token) : ScopedSpan := ⟨t.span, l.scope t.category⟩

def scopedSpans (l : Language) (source : List Char) : List ScopedSpan :=
  (highlight source).map l.scoped

end Tokenizer
