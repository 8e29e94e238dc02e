import Tokenizer.Dump
import Tokenizer.Proofs.Partition
import Tokenizer.Proofs.Patch
import Tokenizer.Proofs.QuotedText

/-!
Reading dumps. From a dump and the name of its file the tokens can be read back with their
categories, spans and texts, and with the texts the source.
-/
namespace Tokenizer

/-! ### Names of categories -/

namespace Dump

/-! ### Lines -/

/-- The line of a token up to its line break. -/
def body (t : Token) : List Char :=
  "  ".toList ++ t.category.label.toList ++ " @ ".toList ++ t.span.text.toList ++ [' '] ++
    Text.quoted t.text

def readLine? (cs : List Char) : Option ((Patch × List Char) × List Char) := do
  let cs ← cs.dropPrefix? "  ".toList
  let category ← Category.ofLabel? (String.ofList (cs.takeWhile (· != ' ')))
  let cs ← (cs.dropWhile (· != ' ')).dropPrefix? " @ ".toList
  let (span, cs) ← Span.read? cs
  let cs ← cs.dropPrefix? [' ']
  let (text, cs) ← Text.unquote? cs
  return ((⟨category, span⟩, text), cs)

def readLines? : Nat → List Char → Option (List (Patch × List Char) × List Char)
  | 0, cs => some ([], cs)
  | n + 1, cs => do
    let (entry, cs) ← readLine? cs
    let cs ← cs.dropPrefix? ['\n']
    let (entries, cs) ← readLines? n cs
    return (entry :: entries, cs)

def read? (path dump : String) : Option (List (Patch × List Char)) := do
  let cs ← dump.toList.dropPrefix? ("Tokens for '".toList ++ path.toList ++ "' (".toList)
  let (count, cs) ← Text.readNumeral? 10 cs
  let cs ← cs.dropPrefix? " tokens):\n".toList
  let (entries, _) ← readLines? count cs
  return entries

theorem line_eq (t : Token) : line t = body t ++ ['\n'] := rfl

end Dump
end Tokenizer
