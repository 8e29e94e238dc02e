/-!
Positions for readers: a line and a column, both counted from one. A column counts characters. A
carriage return and the line feed after it end a line together.
-/
namespace Tokenizer.Text

structure Position where
  line : Nat := 1
  column : Nat := 1
deriving DecidableEq, Repr

namespace Position

/-- The character ends a line: a line feed, vertical tab, form feed, carriage return, next line,
line separator or paragraph separator. -/
def endsLine (c : Char) : Bool :=
  ['\n', '\x0b', '\x0c', '\r', '\u0085', '\u2028', '\u2029'].contains c

/-- The position after the character `c`, when `next?` is the character after that. -/
def after (p : Position) (c : Char) (next? : Option Char) : Position :=
  if endsLine c && !(c == '\r' && next? == some '\n') then
    ⟨p.line + 1, 1⟩
  else
    ⟨p.line, p.column + 1⟩

/-- The position after `n` characters of a text that starts at `p`. -/
def walk (p : Position) : Nat → List Char → Position
  | n + 1, c :: cs => (p.after c cs.head?).walk n cs
  | _, _ => p

def ofIndex (n : Nat) (cs : List Char) : Position := ({} : Position).walk n cs

end Position
end Tokenizer.Text
