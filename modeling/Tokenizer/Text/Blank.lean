import Tokenizer.Text.Printable

/-! White space of any script, and columns of text set apart by spaces. -/
namespace Tokenizer.Text

/-- Ranges of the code points that are white space. -/
def blanks : List (Nat × Nat) :=
  [(0x9, 0xD), (0x20, 0x20), (0x85, 0x85), (0xA0, 0xA0), (0x1680, 0x1680), (0x2000, 0x200A),
    (0x2028, 0x2029), (0x202F, 0x202F), (0x205F, 0x205F), (0x3000, 0x3000)]

def isBlank (c : Char) : Bool := inRanges blanks c.toNat

def trimEnd (cs : List Char) : List Char := (cs.reverse.dropWhile isBlank).reverse

def trim (cs : List Char) : List Char := trimEnd (cs.dropWhile isBlank)

/-- Fills up a text with spaces to at least `n` characters. -/
def padTo (n : Nat) (cs : List Char) : List Char := cs ++ List.replicate (n - cs.length) ' '

end Tokenizer.Text
