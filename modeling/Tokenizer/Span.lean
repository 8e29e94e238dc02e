import Tokenizer.Text.Width

/-! Byte spans of a text. -/
namespace Tokenizer

/-- A stretch of text from byte `start` up to, and without, byte `stop`. -/
structure Span where
  start : Nat
  stop : Nat
deriving DecidableEq, Repr, Inhabited

namespace Span

/-- The greatest offset a span may hold. -/
def maxOffset : Nat := 4294967295

def point (offset : Nat) : Span := ⟨offset, offset⟩

/-- Length in bytes; a span that ends before it starts has none. -/
def length? (s : Span) : Option Nat :=
  if s.start ≤ s.stop then some (s.stop - s.start) else none

def isEmpty (s : Span) : Bool := s.start == s.stop

/-- The least span that covers both. -/
def merge (s t : Span) : Span := ⟨min s.start t.start, max s.stop t.stop⟩

def text (s : Span) : String := s!"{s.start}..{s.stop}"

/-- The characters that `s` covers, if both its ends fall between characters of `source`. -/
def slice? (s : Span) (source : List Char) : Option (List Char) := do
  let length ← s.length?
  let (_, rest) ← Text.cut? s.start source
  let (covered, _) ← Text.cut? length rest
  return covered

/-- The span of `xs` inside `before ++ xs ++ after`. -/
theorem slice?_append (before xs after : List Char) :
    slice? ⟨Text.width before, Text.width before + Text.width xs⟩ (before ++ (xs ++ after)) =
      some xs := by
  simp [slice?, length?]

end Span
end Tokenizer
