import Tokenizer.Log.Directive

/-!
Filters of the log. A filter is a list of directives between commas. Of the directives about an
event the one with the longest target decides; of two with the same target one that asks for a
field goes before one that does not, and otherwise the later one decides. A directive that cannot
be read is left out, with a complaint.
-/
namespace Tokenizer

structure Filter where
  directives : List Directive
deriving DecidableEq, Repr

namespace Filter

def pieces (text : String) : List String := (text.splitOn ",").filter (!·.isEmpty)

/-- Reads a filter. If no directive can be read, it asks for errors only. -/
def parse (text : String) : Filter :=
  match (pieces text).filterMap fun piece => (Directive.parse piece).toOption with
  | [] => ⟨[⟨"", .none, Level.error.rank⟩]⟩
  | directives => ⟨directives⟩

def complaint? (piece : String) : Option String :=
  match Directive.parse piece with
  | .ok _ => none
  | .error e => some ("ignoring `" ++ piece ++ "`: " ++ e.message ++ "\n")

def complaints (text : String) : String := String.join ((pieces text).filterMap complaint?)

/-- The directive that decides about an event. -/
def decisive? (f : Filter) (e : Event) : Option Directive :=
  (f.directives.filter (·.covers e)).foldl (fun best? d =>
    match best? with
    | some best => if best.yieldsTo d then some d else some best
    | none => some d) none

def accepts (f : Filter) (e : Event) : Bool :=
  (f.decisive? e).any (e.level.rank ≤ ·.detail)

/-- The lines of the log for the events to be reported. -/
def render (f : Filter) (events : List Event) : String :=
  String.join ((events.filter f.accepts).map Event.line)

end Filter
end Tokenizer
