import Tokenizer.Highlight.Listing
import Tokenizer.Language.Registry

/-!
Log events. Scanning, registering and the commands report what they do as events; a line of the
log gives the level, the target, the message and the fields of an event.
-/
namespace Tokenizer

/-- How much detail an event gives, from the least to the most. -/
inductive Level where
  | error
  | warn
  | info
  | debug
  | trace
deriving DecidableEq, Repr

namespace Level

def label : Level → String
  | error => "ERROR"
  | warn => "WARN"
  | info => "INFO"
  | debug => "DEBUG"
  | trace => "TRACE"

/-- Levels by number: the more detail, the higher. -/
def rank : Level → Nat
  | error => 1
  | warn => 2
  | info => 3
  | debug => 4
  | trace => 5

end Level

inductive Event where
  /-- A rule opened a region; `depth` counts the modes before. -/
  | entered (rule : String) (region : Region) (depth : Nat)
  /-- A rule closed a region. -/
  | left (rule : String) (region : Region)
  /-- A rule tried to close a region where none was open. -/
  | nothingToLeave (rule : String)
  /-- No rule of the mode matched. -/
  | unmatched (mode : Mode) (span : Span)
  | registered (id : String)
  | alreadyRegistered (id : String)
  | lexed (path : String) (count : Nat)
  | highlighted (language : String) (spans : Nat) (format : Format)
  | checked (path : String) (errors : Nat)
deriving DecidableEq, Repr

namespace Event

def level : Event → Level
  | entered .. | left .. | nothingToLeave .. | unmatched .. => .trace
  | registered .. | alreadyRegistered .. | lexed .. | highlighted .. | checked .. => .debug

/-- The part of the program that reports the event. -/
def target : Event → String
  | entered .. | left .. | nothingToLeave .. | unmatched .. => "leia_lexer::scanner"
  | registered .. | alreadyRegistered .. => "leia_lexer::language"
  | lexed .. => "leiac::commands::lex"
  | highlighted .. => "leiac::commands::highlight"
  | checked .. => "leiac::commands::check"

def message : Event → String
  | entered .. => "push"
  | left .. => "pop"
  | nothingToLeave .. => "pop at root ignored"
  | unmatched .. => "no rule matched"
  | registered .. => "registered language"
  | alreadyRegistered .. => "language already registered"
  | lexed .. => "lexed file"
  | highlighted .. => "highlighted"
  | checked .. => "checked file"

/-- The particulars of the event, in the order in which the log gives them. -/
def fields : Event → List (String × String)
  | entered rule region depth =>
    [("rule", Text.quote rule), ("mode", (Mode.inside region).name), ("depth", toString depth)]
  | left rule region => [("rule", Text.quote rule), ("mode", (Mode.inside region).name)]
  | nothingToLeave rule => [("rule", Text.quote rule)]
  | unmatched mode span => [("mode", mode.name), ("span", span.text)]
  | registered id | alreadyRegistered id => [("id", Text.quote id)]
  | lexed path count => [("path", Text.quote path), ("count", toString count)]
  | highlighted language spans format =>
    [("language", Text.quote language), ("spans", toString spans), ("format", format.label)]
  | checked path errors => [("path", Text.quote path), ("errors", toString errors)]

def line (e : Event) : String :=
  let fields := e.fields.map fun f => ", " ++ f.1 ++ "=" ++ f.2
  " " ++ e.level.label ++ " " ++ e.target ++ " " ++ e.message ++ String.join fields ++ "\n"

end Event

/-- What a step reports: a change of the open regions, or that no rule matched. -/
def Step.event? (s : Step) : Option Event :=
  match s.rule? with
  | none => some (.unmatched s.mode s.span)
  | some rule =>
    match rule.transition, s.modes.regions with
    | .stay, _ => none
    | .push region, _ => some (.entered rule.name region s.modes.depth)
    | .pop, region :: _ => some (.left rule.name region)
    | .pop, [] => some (.nothingToLeave rule.name)

def scanEvents (modes : ModeStack) (source : List Char) : List Event :=
  (scan modes source).filterMap Step.event?

def lineEvents : ModeStack → List (List Char) → List Event
  | _, [] => []
  | modes, text :: texts => scanEvents modes text ++ lineEvents (finalModes modes text) texts

def Registration.event (id : String) : Registration → Event
  | registered => .registered id
  | alreadyRegistered => .alreadyRegistered id

def dumpEvents (path : String) (source : List Char) : List Event :=
  scanEvents {} source ++ [.lexed path (tokens {} source).length]

def highlightEvents (l : Language) (format : Format) (source : List Char) : List Event :=
  scanEvents {} source ++ [.highlighted l.id (highlight source).length format]

end Tokenizer
