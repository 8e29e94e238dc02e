import Tokenizer.Mode.Stack
import Tokenizer.Pattern
import Tokenizer.Token
import Tokenizer.Vocabulary

/-!
Lexical rules. A rule pairs a pattern with the lexemes that a match gives and with the effect of a
match on the open regions.
-/
namespace Tokenizer

/-- How a matched text becomes lexemes. -/
inductive Action where
  /-- One lexeme of a fixed category. -/
  | emit (category : Category)
  /-- One lexeme, whose category the vocabulary decides. -/
  | classify (shape : Shape)
  /-- The first and the last character as marks, and what they enclose as the body. -/
  | enclosed (mark body : Category)
deriving DecidableEq, Repr

namespace Action

/-- The first lexeme of a matched text, and those that follow it. -/
def lexemes (text : List Char) : Action → Lexeme × List Lexeme
  | emit category => (⟨category, text⟩, [])
  | classify shape => (⟨shape.classify text, text⟩, [])
  | enclosed mark body =>
    if text.length < 3 then
      (⟨mark, text⟩, [])
    else
      (⟨mark, text.take 1⟩,
        [⟨body, (text.drop 1).take (text.length - 2)⟩, ⟨mark, text.drop (text.length - 1)⟩])

/-- The lexemes of a text make up the text. -/
theorem flatMap_lexemes (text : List Char) (action : Action) :
    (action.lexemes text).1.text ++ (action.lexemes text).2.flatMap Lexeme.text = text := by
  cases action with
  | emit category => simp [lexemes]
  | classify shape => simp [lexemes]
  | enclosed mark body =>
    simp only [lexemes]
    split
    · simp
    · rename_i h
      have hdrop : text.drop (text.length - 1) = (text.drop 1).drop (text.length - 2) := by
        rw [List.drop_drop]
        congr 1
        omega
      simp only [List.flatMap_cons, List.flatMap_nil, List.append_nil]
      rw [hdrop, List.take_append_drop, List.take_append_drop]

end Action

inductive Transition where
  | stay
  | push (region : Region)
  | pop
deriving DecidableEq, Repr

def Transition.apply (modes : ModeStack) : Transition → ModeStack
  | stay => modes
  | push region => modes.enter region
  | pop => modes.leave

/-- A named pattern with what a match of it means. -/
structure Rule where
  name : String
  pattern : Pattern
  action : Action
  transition : Transition := .stay

namespace Rule

/-- The match of the rule's pattern, unless it is empty. -/
def match? (rule : Rule) (cs : List Char) : Option Match :=
  (rule.pattern.match? cs).filter fun m => !m.text.isEmpty

def first? (rules : List Rule) (cs : List Char) : Option (Rule × Match) :=
  rules.findSome? fun rule => (rule.match? cs).map fun m => (rule, m)

theorem match?_eq_some_iff {rule : Rule} {cs : List Char} {m : Match} :
    rule.match? cs = some m ↔ rule.pattern.match? cs = some m ∧ m.text ≠ [] := by
  simp [match?, Option.filter_eq_some_iff]

/-- The rule that is found is one of the rules, and the match is its own. -/
theorem of_first?_eq_some {rules : List Rule} {cs : List Char} {rule : Rule} {m : Match}
    (h : first? rules cs = some (rule, m)) : rule ∈ rules ∧ rule.match? cs = some m := by
  obtain ⟨rule', hmem, h⟩ := List.exists_of_findSome?_eq_some h
  obtain ⟨m', hm, heq⟩ := Option.map_eq_some_iff.1 h
  obtain ⟨rfl, rfl⟩ : rule' = rule ∧ m' = m := by simpa using heq
  exact ⟨hmem, hm⟩

end Rule
end Tokenizer
