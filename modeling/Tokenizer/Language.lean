import Tokenizer.Text.Quoted
import Tokenizer.Vocabulary

/-! Languages, as an editor knows them. -/
namespace Tokenizer

/-- What an editor needs to know of a language. -/
structure Language where
  id : String
  /-- What is put after every scope name. -/
  scopeSuffix : String
  /-- File extensions, without the dot. -/
  extensions : List String
  keywords : List String
  operators : List String
deriving DecidableEq, Repr

namespace Language

def leia : Language :=
  { id := "leia"
    scopeSuffix := ".leia"
    extensions := ["leia"]
    keywords := Tokenizer.keywords
    operators := Tokenizer.operators }

def scope (l : Language) (c : Category) : String := c.scope ++ l.scopeSuffix

def describe (l : Language) : String :=
  "Language \x7b id: " ++ Text.quote l.id ++ ", token_postfix: " ++ Text.quote l.scopeSuffix ++
    ", extensions: " ++ Text.quoteList l.extensions ++ ", .. \x7d"

end Language
end Tokenizer
