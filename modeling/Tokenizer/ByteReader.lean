/-!
Reading bytes one after the other. A reader may stand anywhere in a text, also inside a character;
it only ever moves forward, and never past the end.
-/
namespace Tokenizer

/-- A place in a sequence of bytes. -/
structure ByteReader where
  /-- Number of bytes that lie behind. -/
  pos : Nat
  /-- The bytes ahead. -/
  ahead : List UInt8
deriving DecidableEq, Repr

namespace ByteReader

def start (bytes : List UInt8) (pos : Nat) : ByteReader := ⟨pos, bytes.drop pos⟩

/-- The next byte, or zero at the end. -/
def current (r : ByteReader) : UInt8 := r.ahead.headD 0

def atEnd (r : ByteReader) : Bool := r.ahead.isEmpty

def isLineBreak (b : UInt8) : Bool := b == 10 || b == 13

def atLineEnd (r : ByteReader) : Bool := r.ahead.head?.all isLineBreak

/-- Moves on by `n` bytes, or to the end if there are fewer. -/
def move (n : Nat) (r : ByteReader) : ByteReader :=
  ⟨r.pos + min n r.ahead.length, r.ahead.drop n⟩

def advance (r : ByteReader) : ByteReader := r.move 1

/-- Number of bytes in the UTF-8 form of a character, as its first byte tells. -/
def charWidth (b : UInt8) : Nat :=
  if 0xC0 ≤ b && b ≤ 0xDF then 2
  else if 0xE0 ≤ b && b ≤ 0xEF then 3
  else if 0xF0 ≤ b && b ≤ 0xF7 then 4
  else 1

def advanceChar (r : ByteReader) : ByteReader := r.move (charWidth r.current)

/-- Moves past the next byte if it satisfies `p`. -/
def eatIf? (p : UInt8 → Bool) (r : ByteReader) : Option ByteReader :=
  if r.ahead.head?.any p then some r.advance else none

def eatAll? (bytes : List UInt8) (r : ByteReader) : Option ByteReader :=
  if bytes.isPrefixOf r.ahead then some (r.move bytes.length) else none

/-- Number of bytes up to the first that does not satisfy `p`, but at most `max`. -/
def runLength (p : UInt8 → Bool) (max : Nat) (r : ByteReader) : Nat :=
  ((r.ahead.take max).takeWhile p).length

/-- Moves to the first byte that does not satisfy `p`, but by at most `max` bytes. -/
def eatUpTo (p : UInt8 → Bool) (max : Nat) (r : ByteReader) : ByteReader :=
  r.move (r.runLength p max)

def eatWhile (p : UInt8 → Bool) (r : ByteReader) : ByteReader := r.eatUpTo p r.ahead.length

def eatLine (r : ByteReader) : ByteReader := r.eatWhile (!isLineBreak ·)

/-- Moving on changes what lies behind, not where the end is. -/
theorem pos_move_add_length (n : Nat) (r : ByteReader) :
    (r.move n).pos + (r.move n).ahead.length = r.pos + r.ahead.length := by
  simp only [move, List.length_drop]
  omega

end ByteReader
end Tokenizer
