import Tokenizer.Rule.Table
import Tokenizer.Text.Quoted

/-! Rules written out. -/
namespace Tokenizer

/-- The action as listings write it. -/
def Action.describe : Action → String
  | emit category => "Emit(" ++ category.label ++ ")"
  | classify shape => "Classify(" ++ shape.label ++ ")"
  | enclosed mark body =>
    "Enclosed \x7b delimiter: " ++ mark.label ++ ", body: " ++ body.label ++ " \x7d"

def Transition.describe : Transition → String
  | stay => "Stay"
  | push region => "Push(" ++ (Mode.inside region).label ++ ")"
  | pop => "Pop"

def Rule.describe (r : Rule) : String :=
  "Rule \x7b name: " ++ Text.quote r.name ++ ", action: " ++ r.action.describe ++
    ", transition: " ++ r.transition.describe ++ ", .. \x7d"

def describeRules : String :=
  let entry := fun (m : Mode) => m.label ++ ": " ++ Text.quoteList (m.rules.map Rule.name)
  "\x7b" ++ ", ".intercalate (Mode.all.map entry) ++ "\x7d"

end Tokenizer
