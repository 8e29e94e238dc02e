import Tokenizer.Diagnostic.Report
import Tokenizer.Dump
import Tokenizer.Highlight.Listing
import Tokenizer.Line
import Tokenizer.Proofs.Encoding

/-!
Scanning with checks. Offsets are numbers of 32 bits, and places in a source are its bytes. Here
every sum and difference of offsets, every byte that is looked at and every slice of the source is
checked, and a loop may go round only so often. A result of `none` means that an operation left
its range or that a loop went on for too long.
-/
namespace Tokenizer

/-- A token without its text, which the source has to be sliced for. -/
structure Mark where
  category : Category
  span : Span
deriving DecidableEq, Repr

def Token.mark (t : Token) : Mark := ⟨t.category, t.span⟩

namespace Checked

/-- The sum of two offsets, if it is an offset; `sub?` is their difference under the same terms. -/
def add? (a b : Nat) : Option Nat := if a + b ≤ Span.maxOffset then some (a + b) else none

def sub? (a b : Nat) : Option Nat := if b ≤ a then some (a - b) else none

/-! ### Reading bytes -/

structure Cursor where
  bytes : List UInt8
  limit : Nat
  pos : Nat
deriving DecidableEq, Repr

namespace Cursor

/-- The start of a source. What lies beyond the greatest offset is not read. -/
def start (source : List Char) : Cursor :=
  ⟨Text.bytes source, min (Text.bytes source).length Span.maxOffset, 0⟩

def atEnd (c : Cursor) : Bool := c.limit ≤ c.pos

/-- The bytes from the cursor up to the limit, if these are two places in order. -/
def ahead? (c : Cursor) : Option (List UInt8) :=
  if c.pos ≤ c.limit ∧ c.limit ≤ c.bytes.length then some ((c.bytes.take c.limit).drop c.pos)
  else none

def move? (n : Nat) (c : Cursor) : Option Cursor := do
  let pos ← add? c.pos n
  return { c with pos }

def skipChar? (c : Cursor) : Option Cursor := do
  let ahead ← c.ahead?
  match ahead with
  | [] => return c
  -- the first byte of a character tells its width
  | b :: _ => c.move? (ByteReader.charWidth b)

def pass? (c : Cursor) : Stride → Option Cursor
  | .byte => c.move? 1
  | .whole => c.skipChar?

def eatWhile? (p : UInt8 → Bool) : Nat → Cursor → Option Cursor
  | 0, _ => none
  | n + 1, c => do
    let ahead ← c.ahead?
    if ahead.head?.any p then
      let next ← c.move? 1
      eatWhile? p n next
    else
      return c

/-- Reads units until one fails. If a unit does not move on, this goes on for too long. -/
def repeat? (unit : Cursor → Option (Option Cursor)) : Nat → Cursor → Option Cursor
  | 0, _ => none
  | n + 1, c => do
    match ← unit c with
    | none => return c
    | some next => repeat? unit n next

/-- Reads a pattern: the cursor after it, or nothing where it does not match. -/
def read? (fuel : Nat) : Pattern → Cursor → Option (Option Cursor)
  | .empty, c => some (some c)
  | .one p stride, c => do
    let ahead ← c.ahead?
    if ahead.head?.any (onByte p) then
      let next ← c.pass? stride
      return some next
    else
      return none
  | .run p, c => do
    let next ← c.eatWhile? (onByte p) fuel
    -- a run is asked for its length
    let _length ← sub? next.pos c.pos
    return some next
  | .run1 p, c => do
    let next ← c.eatWhile? (onByte p) fuel
    let length ← sub? next.pos c.pos
    return if length = 0 then none else some next
  | .notBefore p, c => do
    let ahead ← c.ahead?
    return if ahead.head?.any (onByte p) then none else some c
  | .seq a b, c => do
    match ← read? fuel a c with
    | none => return none
    | some next => read? fuel b next
  | .orElse a b, c => do
    match ← read? fuel a c with
    | none => read? fuel b c
    | some next => return some next
  | .many unit, c => do
    let next ← repeat? (read? fuel unit) fuel c
    return some next

def firstRule? (fuel : Nat) : List Rule → Cursor → Option (Option (Rule × Cursor))
  | [], _ => some none
  | rule :: rules, c => do
    match ← read? fuel rule.pattern c with
    | none => firstRule? fuel rules c
    | some next =>
      if c.pos < next.pos then return some (rule, next) else firstRule? fuel rules c

end Cursor

/-! ### Tokens -/

/-- The first mark of a match that takes up `span`, and those that follow it. -/
def emit? (source : List Char) (span : Span) : Action → Option (Mark × List Mark)
  | .emit category => some (⟨category, span⟩, [])
  | .classify shape => do
    let text ← span.slice? source
    return (⟨shape.classify text, span⟩, [])
  | .enclosed mark body => do
    let length ← span.length?
    -- two marks and a body need three bytes
    if length < 3 then
      return (⟨mark, span⟩, [])
    else
      let inner ← add? span.start 1
      let close ← sub? span.stop 1
      return (⟨mark, ⟨span.start, inner⟩⟩, [⟨body, ⟨inner, close⟩⟩, ⟨mark, ⟨close, span.stop⟩⟩])

structure Scanner where
  source : List Char
  cursor : Cursor
  modes : ModeStack
  /-- Marks of the last match that have not been asked for yet. -/
  queue : List Mark
deriving DecidableEq, Repr

namespace Scanner

def start (modes : ModeStack) (source : List Char) : Scanner := ⟨source, .start source, modes, []⟩

/-- How often a loop may go round: once for each byte, and once more to see the end. -/
def fuel (s : Scanner) : Nat := s.cursor.limit + 1

def step? (s : Scanner) : Option (Mark × Scanner) := do
  match ← s.cursor.firstRule? s.fuel s.modes.top.rules with
  | some (rule, next) =>
    let (first, rest) ← emit? s.source ⟨s.cursor.pos, next.pos⟩ rule.action
    return (first, { s with cursor := next, modes := rule.transition.apply s.modes, queue := rest })
  | none =>
    let next ← s.cursor.skipChar?
    return (⟨.invalid, ⟨s.cursor.pos, next.pos⟩⟩, { s with cursor := next })

def next? (s : Scanner) : Option (Option (Mark × Scanner)) :=
  match s.queue with
  | mark :: marks => some (some (mark, { s with queue := marks }))
  | [] => if s.cursor.atEnd then some none else s.step?.map some

def exhaust? : Nat → Scanner → Option (List Mark × Scanner)
  | 0, _ => none
  | n + 1, s => do
    match ← s.next? with
    | none => return ([], s)
    | some (mark, s) =>
      let (marks, last) ← exhaust? n s
      return (mark :: marks, last)

end Scanner

def token? (source : List Char) (mark : Mark) : Option Token := do
  let text ← mark.span.slice? source
  return ⟨mark.category, mark.span.start, text⟩

def fault? (source : List Char) (mode : Mode) (opened : Nat) (mark : Mark) :
    Option (Option Diagnostic) := do
  let t ← token? source mark
  match mark.category with
  -- only this fault proposes an edit at an offset of its own
  | .stringEscapeInvalid =>
    let fault ← Diagnostic.invalidEscape? mark.span ((t.text.drop 1).headD '\\') opened
    return some fault
  | _ => return Diagnostic.ofToken? mode opened t

/-- The faults still to come, where the innermost region was opened at `opened`. -/
def Scanner.faults? : Nat → Nat → Scanner → Option (List Diagnostic)
  | 0, _, _ => none
  | n + 1, opened, s => do
    match ← s.next? with
    | none => return (s.modes.regions.head?.map (.unclosed ⟨opened, s.cursor.pos⟩)).toList
    | some (mark, s') =>
      let opened := if s.modes.depth < s'.modes.depth then mark.span.start else opened
      let fault ← fault? s.source s.modes.top opened mark
      let faults ← faults? n opened s'
      return fault.toList ++ faults

/-! ### What is made of the tokens -/

def readLine? (modes : ModeStack) (source : List Char) : Option (List Mark × ModeStack) := do
  let s := Scanner.start modes source
  let (marks, last) ← s.exhaust? s.fuel
  return (marks, last.modes)

def joinTo (mark : Mark) : List Mark → List Mark
  | [] => [mark]
  | next :: marks =>
    if mark.category == next.category && mark.span.stop == next.span.start then
      { mark with span := mark.span.merge next.span } :: marks
    else
      mark :: next :: marks

def highlight? (source : List Char) : Option (List Mark) := do
  let (marks, _) ← readLine? {} source
  return (marks.filter (!·.category.isTrivia)).foldr joinTo []

def scopedSpans? (l : Language) (source : List Char) : Option (List ScopedSpan) := do
  let marks ← highlight? source
  return marks.map fun mark => ⟨mark.span, l.scope mark.category⟩

def renderText? (l : Language) (source : List Char) : Option String := do
  let marks ← highlight? source
  let stretches ← marks.mapM (token? source)
  return Highlight.renderText l stretches

def dump? (path : String) (source : List Char) : Option String := do
  let (marks, modes) ← readLine? {} source
  let ts ← marks.mapM (token? source)
  return String.ofList (Dump.header path ts.length ++ ts.flatMap Dump.line ++ Dump.footer modes)

def diagnose? (source : List Char) : Option (List Diagnostic) :=
  let s := Scanner.start {} source
  s.faults? s.fuel 0

def charIndices : Nat → List Char → List (Nat × Char)
  | _, [] => []
  | offset, c :: cs => (offset, c) :: charIndices (offset + c.utf8Size) cs

/-- Number of characters that start before a byte, or before the end if that comes first. -/
def charOffset (source : List Char) (byte : Nat) : Nat :=
  ((charIndices 0 source).takeWhile (·.1 < min byte (Text.width source))).length

def faultRanges? (source : List Char) : Option (List (Nat × Nat)) := do
  let ds ← diagnose? source
  return ds.map fun d => (charOffset source d.span.start, charOffset source d.span.stop)

end Checked
end Tokenizer
