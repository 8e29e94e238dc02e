import Tokenizer.Log

/-!
Directives of a log filter. A directive is a level, a target, or a target and its level; between
target and level, square brackets may narrow it down to a span or a field.

The parts of a directive are found in its text without the white space at the ends, but they are
taken at the same places of its whole text. So white space at the front shifts them, and a level
after white space, or before it, cannot be read.
-/
namespace Tokenizer

inductive DirectiveError where
  /-- It has not the form of a directive. -/
  | malformed
  /-- What stands in the place of the level is none. -/
  | unknownLevel
deriving DecidableEq, Repr

def DirectiveError.message : DirectiveError → String
  | malformed => "invalid filter directive"
  | unknownLevel =>
    "error parsing level filter: expected one of \"off\", \"error\", \"warn\", \"info\", " ++
      "\"debug\", \"trace\", or a number 0-5"

/-- What square brackets narrow a directive down to. -/
inductive Narrowing where
  /-- All events. -/
  | none
  /-- Events with a field of this name. -/
  | field (name : String)
  /-- Events inside of spans, or with a field of a certain value; there are none in this log. -/
  | span
deriving DecidableEq, Repr

/-- The most detail to report of some events; nothing at all if `detail` is zero. -/
structure Directive where
  /-- What the targets of the events start with. -/
  target : String
  narrowing : Narrowing := .none
  detail : Nat
deriving DecidableEq, Repr

namespace Directive

def full : Nat := Level.trace.rank

/-- The number that decimal digits stand for; a plus sign may precede them. -/
def number? (text : String) : Option Nat :=
  let digits := match text.toList with
    | '+' :: cs => cs
    | cs => cs
  if digits.isEmpty || !digits.all Char.isDigit then none
  else some (digits.foldl (fun n c => 10 * n + (c.toNat - '0'.toNat)) 0)

/-- The detail named by a level: its name in any case, or its number. -/
def detail? (text : String) : Option Nat :=
  match number? text with
  | some n => if n ≤ full then some n else none
  | none =>
    match text.toLower with
    | "off" => some 0
    | "error" => some Level.error.rank
    | "warn" => some Level.warn.rank
    | "info" => some Level.info.rank
    | "debug" => some Level.debug.rank
    | "trace" => some Level.trace.rank
    | _ => none

/-- A level or a target may start with this character. -/
def startsWord (c : Char) : Bool :=
  c.isAlphanum || c == '-' || c == ':' || c == '_' || 0x80 ≤ c.toNat

def part (cs : List Char) (i j : Nat) : String := String.ofList ((cs.take j).drop i)

/--
Reads what follows a target: nothing, or an equals sign at place `i` and then a level. Without a
level the target is reported in full.
-/
def parseLevel (cs : List Char) (i : Nat) : List Char → Except DirectiveError Nat
  | [] => .ok full
  | '=' :: _ =>
    match cs.drop (i + 1) with
    | [] => .ok full
    | level => (detail? (String.ofList level)).elim (.error .unknownLevel) .ok
  | _ => .error .malformed

def narrowingOf (name : List Char) (field : String) : Narrowing :=
  if name.isEmpty && !field.toList.contains '=' then .field field else .span

/--
Reads what follows an opening square bracket at place `i`: the name of a span or a field in
braces or both, the closing bracket and perhaps a level.
-/
def parseBrackets (cs : List Char) (target : String) (i : Nat) (rest : List Char) :
    Except DirectiveError Directive := do
  let name := rest.takeWhile fun c => c != ']' && c != '\x7b'
  let j := i + 1 + name.length
  match rest.drop name.length with
  | ']' :: after => return ⟨target, .span, ← parseLevel cs (j + 1) after⟩
  | '\x7b' :: rest =>
    let field := rest.takeWhile (· != '\x7d')
    let k := j + 1 + field.length
    match field, rest.drop field.length with
    | _ :: _, '\x7d' :: ']' :: after =>
      return ⟨target, narrowingOf name (part cs (j + 1) k), ← parseLevel cs (k + 2) after⟩
    | _, _ => throw .malformed
  | _ => throw .malformed

def parse (text : String) : Except DirectiveError Directive := do
  let cs := text.toList
  let trimmed := Text.trim cs
  let word := trimmed.takeWhile fun c => c != '=' && c != '['
  let target := part cs 0 word.length
  match word, trimmed.drop word.length with
  | [], '[' :: rest => parseBrackets cs "" 0 rest
  | c :: _, rest =>
    if !startsWord c then throw .malformed
    match rest with
    | [] => return (detail? text).elim ⟨text, .none, full⟩ (⟨"", .none, ·⟩)
    | '[' :: rest => parseBrackets cs target word.length rest
    | rest => return ⟨target, .none, ← parseLevel cs word.length rest⟩
  | _, _ => throw .malformed

/-- The event has a field of the given name; every event has its message. -/
def hasField (e : Event) (name : String) : Bool :=
  name == "message" || (e.fields.map Prod.fst).contains name

def covers (d : Directive) (e : Event) : Bool :=
  d.target.toList.isPrefixOf e.target.toList &&
    match d.narrowing with
    | .none => true
    | .field name => hasField e name
    | .span => false

/-- The second of two directives about one event is the one to follow. -/
def yieldsTo (d d' : Directive) : Bool :=
  if d.target.length != d'.target.length then d.target.length < d'.target.length
  else
    match d.narrowing, d'.narrowing with
    | .field name, .field name' => name ≤ name'
    | .field _, _ => false
    | _, _ => true

end Directive
end Tokenizer
