import Tokenizer.Scan

/-!
Token streams. A stream reads its source step by step, only as far as tokens are asked for. A step
that gives several tokens leaves all but the first in a queue.
-/
namespace Tokenizer

/-- A scan that has been stopped between two tokens. -/
structure Stream where
  source : List Char
  /-- The offset up to which the source has been read. -/
  offset : Nat
  /-- The source that is still to be read. -/
  rest : List Char
  /-- The modes after what has been read. -/
  modes : ModeStack
  /-- Tokens of the last step that have not been asked for yet. -/
  queue : List Token
deriving DecidableEq, Repr

namespace Stream

def start (modes : ModeStack) (source : List Char) : Stream := ⟨source, 0, source, modes, []⟩

def advance (s : Stream) (taken : Step) : Stream :=
  { s with offset := taken.stop, rest := taken.rest, modes := taken.after, queue := taken.queued }

def next? (s : Stream) : Option (Token × Stream) :=
  match s.queue, s.rest with
  | t :: ts, _ => some (t, { s with queue := ts })
  | [], [] => none
  | [], c :: cs =>
    let taken := step s.offset s.modes c cs
    some (taken.token, s.advance taken)

/-- The next `n` tokens, or as many as there are, and the stream after them. -/
def take : Nat → Stream → List Token × Stream
  | 0, s => ([], s)
  | n + 1, s =>
    match s.next? with
    | none => ([], s)
    | some (t, s) =>
      let (ts, s) := take n s
      (t :: ts, s)

def remaining (s : Stream) : List Token :=
  s.queue ++ (steps s.offset s.modes s.rest).flatMap Step.tokens

def finish (s : Stream) : Stream :=
  { s with
    offset := s.offset + Text.width s.rest
    rest := []
    modes := endModes s.modes (steps s.offset s.modes s.rest)
    queue := [] }

/-- Reads the source again from its start, in the modes that are active now. -/
def rescan (s : Stream) : Stream := start s.modes s.source

/-- The next token is taken from the queue or, where that is empty, is the first of a step. -/
theorem next?_cases {s s' : Stream} {t : Token} (h : s.next? = some (t, s')) :
    (∃ ts, s.queue = t :: ts ∧ s' = { s with queue := ts }) ∨
    ∃ c cs, s.queue = [] ∧ s.rest = c :: cs ∧ t = (step s.offset s.modes c cs).token ∧
      s' = s.advance (step s.offset s.modes c cs) := by
  cases hq : s.queue with
  | cons u us =>
    obtain ⟨rfl, rfl⟩ : u = t ∧ { s with queue := us } = s' := by simpa [next?, hq] using h
    exact .inl ⟨us, rfl, rfl⟩
  | nil =>
    cases hr : s.rest with
    | nil => simp [next?, hq, hr] at h
    | cons c cs =>
      obtain ⟨rfl, rfl⟩ : (step s.offset s.modes c cs).token = t ∧
          s.advance (step s.offset s.modes c cs) = s' := by simpa [next?, hq, hr] using h
      exact .inr ⟨c, cs, rfl, rfl, rfl, rfl⟩

/-- The next token is the first of those still to come. -/
theorem remaining_of_next? {s s' : Stream} {t : Token} (h : s.next? = some (t, s')) :
    s.remaining = t :: s'.remaining := by
  obtain ⟨ts, hq, rfl⟩ | ⟨c, cs, hq, hr, rfl, rfl⟩ := next?_cases h
  · simp [remaining, hq]
  · simp [remaining, hq, hr, steps_cons, advance, Step.tokens]

/-- A stream has a next token as long as tokens are to come. -/
theorem next?_eq_none_iff {s : Stream} : s.next? = none ↔ s.remaining = [] := by
  cases hn : s.next? with
  | some p => simp [remaining_of_next? hn]
  | none =>
    cases hq : s.queue with
    | cons u us => simp [next?, hq] at hn
    | nil =>
      cases hr : s.rest with
      | nil => simp [remaining, hq, hr]
      | cons c cs => simp [next?, hq, hr] at hn

end Stream
end Tokenizer
