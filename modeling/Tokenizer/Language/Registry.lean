import Tokenizer.Language

/-!
The languages that an editor knows. The first language to be registered under an id keeps it, so
registering twice does no harm.
-/
namespace Tokenizer

/-- Whether a language was taken up. -/
inductive Registration where
  | registered
  /-- The id was taken, and its language stays. -/
  | alreadyRegistered
deriving DecidableEq, Repr

def Registration.label : Registration → String
  | registered => "Registered"
  | alreadyRegistered => "AlreadyRegistered"

/-- The known languages, in the order in which they were registered. -/
structure Registry where
  languages : List Language := []
deriving DecidableEq, Repr

namespace Registry

def get? (r : Registry) (id : String) : Option Language := r.languages.find? (·.id == id)

/-- Registers a language, unless its id is taken. -/
def register (r : Registry) (l : Language) : Registration × Registry :=
  match r.get? l.id with
  | some _ => (.alreadyRegistered, r)
  | none => (.registered, ⟨r.languages ++ [l]⟩)

/-- After a registration its id is taken, by the language that had it before or by the new one. -/
theorem get?_register_self (r : Registry) (l : Language) :
    (r.register l).2.get? l.id = some ((r.get? l.id).getD l) := by
  unfold register
  cases h : r.get? l.id with
  | some l' => simp [h]
  | none =>
    have hnone : r.languages.find? (·.id == l.id) = none := h
    simp [get?, List.find?_append, hnone]

/-- A registration changes nothing for other ids. -/
theorem get?_register_of_ne (r : Registry) (l : Language) {id : String} (hid : l.id ≠ id) :
    (r.register l).2.get? id = r.get? id := by
  unfold register
  split
  · rfl
  · simp [get?, List.find?_append, hid]

/-- The first language that claims a file extension. -/
def forExtension? (r : Registry) (extension : String) : Option Language :=
  r.languages.find? (·.extensions.contains extension)

def size (r : Registry) : Nat := r.languages.length

def isEmpty (r : Registry) : Bool := r.languages.isEmpty

def describe (r : Registry) : String :=
  let entries := r.languages.map fun l => Text.quote l.id ++ ": " ++ l.describe
  "LanguageRegistry \x7b languages: \x7b" ++ ", ".intercalate entries ++ "\x7d \x7d"

end Registry
end Tokenizer
