import Tokenizer.Category
import Tokenizer.Span

/-! Tokens: classified stretches of a source. -/
namespace Tokenizer

/-- A stretch of source with its category: it starts at byte `start` and reads `text`. -/
structure Token where
  category : Category
  start : Nat
  text : List Char
deriving DecidableEq, Repr

namespace Token

/-- The offset just past the token. -/
def stop (t : Token) : Nat := t.start + Text.width t.text

def span (t : Token) : Span := ⟨t.start, t.stop⟩

/-- The same token, `n` bytes further on. -/
def shift (n : Nat) (t : Token) : Token := { t with start := n + t.start }

end Token

/-- A classified piece of text that has not been given a place in a source. -/
structure Lexeme where
  category : Category
  text : List Char
deriving DecidableEq, Repr

namespace Lexeme

def place (offset : Nat) (x : Lexeme) : Token := ⟨x.category, offset, x.text⟩

/-- Lays lexemes end to end from byte `offset` on. -/
def layout : Nat → List Lexeme → List Token
  | _, [] => []
  | offset, x :: xs => x.place offset :: layout (offset + Text.width x.text) xs

/-- Laying out lexemes keeps their texts. -/
theorem map_text_layout (offset : Nat) (xs : List Lexeme) :
    (layout offset xs).map Token.text = xs.map Lexeme.text := by
  induction xs generalizing offset with
  | nil => rfl
  | cons x xs ih => simp [layout, place, ih]

end Lexeme
end Tokenizer
