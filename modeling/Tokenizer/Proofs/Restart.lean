import Tokenizer.Proofs.Safety

/-!
Taking up a scan where it was left. A stream that has been stopped anywhere goes on with the
tokens that wait in its queue, and then as a new stream of the source behind its cursor does, moved
by the offset of the cursor. The same holds of a scan that keeps the whole source and reads it by
absolute offsets.
-/
namespace Tokenizer

open Checked

/-- The end of the last of these tokens, which were given from the start of a source on. -/
def Token.reach (ts : List Token) : Nat := (ts.getLast?.map Token.stop).getD 0

@[simp] theorem Token.reach_concat (ts : List Token) (t : Token) :
    Token.reach (ts ++ [t]) = t.stop := by
  simp [Token.reach]

/-! ### Streams of a part of the source -/

theorem Step.token_shift (n : Nat) (s : Step) : (s.shift n).token = s.token.shift n :=
  (List.cons.inj (s.tokens_shift n)).1

theorem Step.queued_shift (n : Nat) (s : Step) :
    (s.shift n).queued = s.queued.map (Token.shift n) :=
  (List.cons.inj (s.tokens_shift n)).2

namespace Stream

/-- A new stream of what is still to be read, in the modes that are active now. -/
def restart (s : Stream) : Stream := start s.modes s.rest

/-- The stream of a part of `source`, placed where that part starts in the whole. -/
def rebase (source : List Char) (n : Nat) (s : Stream) : Stream :=
  ⟨source, n + s.offset, s.rest, s.modes, s.queue.map (Token.shift n)⟩

theorem advance_rebase (source : List Char) (n : Nat) (s : Stream) (taken : Step) :
    (s.rebase source n).advance (taken.shift n) = (s.advance taken).rebase source n := by
  simp only [advance, rebase, Step.stop_shift, Step.queued_shift]
  rfl

/-- A stream and its copy at another place of another source take the same steps. -/
theorem next?_rebase (source : List Char) (n : Nat) (s : Stream) :
    (s.rebase source n).next? =
      s.next?.map fun p => (p.1.shift n, p.2.rebase source n) := by
  cases hq : s.queue with
  | cons t ts => simp [next?, rebase, hq]
  | nil =>
    have hqueue : (s.rebase source n).queue = [] := by simp [rebase, hq]
    cases hr : s.rest with
    | nil =>
      have hrest : (s.rebase source n).rest = [] := hr
      simp [next?, hq, hr, hqueue, hrest]
    | cons c cs =>
      have hrest : (s.rebase source n).rest = c :: cs := hr
      have hstep : step (s.rebase source n).offset (s.rebase source n).modes c cs =
          (step s.offset s.modes c cs).shift n := step_add n s.offset s.modes c cs
      simp only [next?, hq, hr, hqueue, hrest, hstep, Step.token_shift, advance_rebase,
        Option.map_some]

theorem take_rebase (source : List Char) (n k : Nat) (s : Stream) :
    (s.rebase source n).take k =
      ((s.take k).1.map (Token.shift n), (s.take k).2.rebase source n) := by
  induction k generalizing s with
  | zero => rfl
  | succ k ih =>
    rw [take, take, next?_rebase]
    cases s.next? with
    | none => rfl
    | some p => simp only [Option.map_some, ih, List.map_cons]

/-- The queue is read first, and reading it changes nothing else. -/
theorem take_queue_add (s : Stream) (n : Nat) :
    s.take (s.queue.length + n) =
      (s.queue ++ (take n { s with queue := [] }).1, (take n { s with queue := [] }).2) := by
  obtain ⟨source, offset, rest, modes, queue⟩ := s
  induction queue with
  | nil => simp
  | cons t ts ih =>
    have hnext : next? ⟨source, offset, rest, modes, t :: ts⟩ =
        some (t, ⟨source, offset, rest, modes, ts⟩) := rfl
    have hlength : (t :: ts).length + n = (ts.length + n) + 1 := by
      rw [List.length_cons]
      omega
    rw [hlength, take, hnext]
    simp only [ih, List.cons_append]

/-- Without its queue, a stream is a new stream of what it has not read. -/
theorem restart_rebase (s : Stream) :
    s.restart.rebase s.source s.offset = { s with queue := [] } := rfl

theorem take_restart (s : Stream) (n : Nat) :
    s.take (s.queue.length + n) =
      (s.queue ++ (s.restart.take n).1.map (Token.shift s.offset),
        (s.restart.take n).2.rebase s.source s.offset) := by
  rw [take_queue_add, ← restart_rebase, take_rebase]

theorem remaining_restart (s : Stream) :
    s.remaining = s.queue ++ s.restart.remaining.map (Token.shift s.offset) := by
  have h := flatMap_tokens_steps s.offset s.modes s.rest
  rw [remaining, h]
  rfl

theorem finish_restart (s : Stream) :
    s.finish = s.restart.finish.rebase s.source s.offset := by
  have hmodes := endModes_steps s.offset s.modes s.rest
  simp only [finish, rebase, restart, start, hmodes, Nat.zero_add, List.map_nil]
  rfl

/-! ### The queue -/

/-- The queue holds two tokens at most, and they fill the bytes between `last` and the cursor. -/
structure Queued (last : Nat) (s : Stream) : Prop where
  length_le : s.queue.length ≤ 2
  laid : LaidFrom last s.queue
  reaches : last + Text.width (s.queue.flatMap Token.text) = s.offset

theorem length_queued_le (start : Nat) (modes : ModeStack) (c : Char) (cs : List Char) :
    (step start modes c cs).queued.length ≤ 2 := by
  rcases step_cases start modes c cs with ⟨rule, m, hmem, -, hstep⟩ | hstep
  · rw [hstep, Step.queued, Step.lexemes]
    rcases isSingle_or_charEscape _ rule hmem with hsingle | rfl
    · simp [Action.lexemes_of_isSingle hsingle, Lexeme.layout]
    · simp only [Action.lexemes]
      split <;> simp [Lexeme.layout]
  · rw [hstep]
    exact Nat.zero_le 2

/-- A step queues what it has read behind its first token. -/
theorem queued_advance (s : Stream) (c : Char) (cs : List Char) :
    Queued (step s.offset s.modes c cs).token.stop (s.advance (step s.offset s.modes c cs)) := by
  have hlaid := (step s.offset s.modes c cs).laidFrom_tokens (step_text_ne_nil _ _ c cs)
  have htext := (step s.offset s.modes c cs).flatMap_text_tokens
  refine ⟨length_queued_le s.offset s.modes c cs, hlaid.2.2, ?_⟩
  have hstart : (step s.offset s.modes c cs).token.start = (step s.offset s.modes c cs).start := rfl
  rw [Step.tokens, List.flatMap_cons] at htext
  simp only [advance, Token.stop, Step.stop, hstart, ← htext, Text.width_append, Nat.add_assoc]

theorem Queued.next {s s' : Stream} {t : Token} {last : Nat} (hs : s.Queued last)
    (h : s.next? = some (t, s')) : s'.Queued t.stop := by
  obtain ⟨ts, hq, rfl⟩ | ⟨c, cs, -, -, rfl, rfl⟩ := next?_cases h
  · -- the cursor does not move while the queue is read
    obtain ⟨hlength, hlaid, hreaches⟩ := hs
    rw [hq] at hlength hlaid hreaches
    obtain ⟨rfl, -, hlaid⟩ := hlaid
    refine ⟨?_, hlaid, ?_⟩
    · rw [List.length_cons] at hlength
      exact Nat.le_of_succ_le hlength
    · rw [List.flatMap_cons, Text.width_append, ← Nat.add_assoc] at hreaches
      exact hreaches
  · exact queued_advance s c cs

theorem queued_start (modes : ModeStack) (source : List Char) :
    (start modes source).Queued 0 := ⟨Nat.zero_le 2, trivial, rfl⟩

/-- Tokens wait exactly where the cursor has run ahead of the tokens that were given. -/
theorem Queued.eq_offset_iff {s : Stream} {last : Nat} (hs : s.Queued last) :
    last = s.offset ↔ s.queue = [] := by
  obtain ⟨-, hlaid, hreaches⟩ := hs
  cases hq : s.queue with
  | nil => simpa [hq] using hreaches
  | cons t ts =>
    rw [hq] at hlaid hreaches
    have hpos := Text.width_pos hlaid.2.1
    rw [List.flatMap_cons, Text.width_append] at hreaches
    simp only [List.cons_ne_nil, iff_false]
    omega

/-! ### Requests one after the other -/

/-- What is known of a stream of `source` that was started in `modes` and has given `given`. -/
structure Stopped (modes : ModeStack) (source : List Char) (given : List Token) (s : Stream) :
    Prop where
  source_eq : s.source = source
  within : s.Within
  queued : s.Queued (Token.reach given)
  tokens_eq : given ++ s.remaining = tokens modes source

section
variable {modes : ModeStack} {source : List Char} {given : List Token} {s s' : Stream}

theorem stopped_start (modes : ModeStack) (source : List Char) :
    Stopped modes source [] (start modes source) :=
  ⟨rfl, within_start modes source, queued_start modes source, rfl⟩

theorem Stopped.next {t : Token} (hs : Stopped modes source given s)
    (h : s.next? = some (t, s')) : Stopped modes source (given ++ [t]) s' where
  source_eq := (source_of_next? h).trans hs.source_eq
  within := hs.within.next h
  queued := by
    rw [Token.reach_concat]
    exact hs.queued.next h
  tokens_eq := by
    have htokens := hs.tokens_eq
    rw [remaining_of_next? h] at htokens
    simpa using htokens

theorem Stopped.take (hs : Stopped modes source given s) (k : Nat) :
    Stopped modes source (given ++ (s.take k).1) (s.take k).2 := by
  induction k generalizing s given with
  | zero => simpa [Stream.take] using hs
  | succ k ih =>
    rw [Stream.take]
    cases hnext : s.next? with
    | none => simpa using hs
    | some p => simpa using ih (hs.next hnext)

theorem Stopped.cut?_offset (hs : Stopped modes source given s) :
    ∃ before, Text.cut? s.offset source = some (before, s.rest) := by
  obtain ⟨before, hsplit, hwidth⟩ := hs.within.split
  refine ⟨before, ?_⟩
  rw [← hs.source_eq, ← hsplit, ← hwidth, Text.cut?_width_append]

theorem Stopped.width_rest_le (hs : Stopped modes source given s) :
    Text.width s.rest ≤ Text.width source := by
  obtain ⟨before, hsplit, -⟩ := hs.within.split
  rw [← hs.source_eq, ← hsplit, Text.width_append]
  exact Nat.le_add_left _ _

theorem Stopped.length_remaining_lt_fuel (hs : Stopped modes source given s) :
    s.remaining.length < s.scanner.fuel := by
  have hlength := congrArg List.length hs.tokens_eq
  have hle := (partition_tokens modes source).length_le
  have hfuel : s.scanner.fuel = Text.width source + 1 := by
    rw [← hs.source_eq]
    rfl
  rw [List.length_append] at hlength
  omega

end

end Stream

/-! ### Reading by absolute offsets -/

def Mark.shift (n : Nat) (mark : Mark) : Mark :=
  ⟨mark.category, ⟨n + mark.span.start, n + mark.span.stop⟩⟩

theorem Token.mark_shift (n : Nat) (t : Token) : (t.shift n).mark = t.mark.shift n := by
  simp [Token.mark, Mark.shift, Token.span, Token.stop, Token.shift, Nat.add_assoc]

def Checked.Scanner.take? : Nat → Scanner → Option (List Mark × Scanner)
  | 0, s => some ([], s)
  | n + 1, s => do
    match ← s.next? with
    | none => return ([], s)
    | some (mark, s) =>
      let (marks, last) ← take? n s
      return (mark :: marks, last)

theorem Stream.take?_scanner {s : Stream} (hmax : Text.width s.source ≤ Span.maxOffset)
    (h : s.Within) (n : Nat) :
    s.scanner.take? n = some ((s.take n).1.map Token.mark, (s.take n).2.scanner) := by
  induction n generalizing s with
  | zero => rfl
  | succ n ih =>
    rw [Scanner.take?, next?_scanner hmax h, Stream.take]
    cases hnext : s.next? with
    | none => rfl
    | some p =>
      have hmax' : Text.width p.2.source ≤ Span.maxOffset := by rwa [source_of_next? hnext]
      have hrest := ih hmax' (h.next hnext)
      simp [hrest]

/-- A scan by absolute offsets finds what a new scan of the rest of the source finds. -/
theorem Stream.Stopped.exhaust?_scanner {modes : ModeStack} {source : List Char}
    {given : List Token} {s : Stream} (hs : s.Stopped modes source given)
    (hmax : Text.width source ≤ Span.maxOffset) :
    ∃ again last, readLine? s.modes s.rest = some (again, last.modes) ∧
      s.scanner.exhaust? s.scanner.fuel =
        some (s.scanner.queue ++ again.map (Mark.shift s.offset), last) := by
  have hrest : Text.width s.rest ≤ Span.maxOffset := Nat.le_trans hs.width_rest_le hmax
  have hexhaust := Stream.exhaust?_scanner (by rwa [hs.source_eq]) hs.within
    hs.length_remaining_lt_fuel
  refine ⟨s.restart.remaining.map Token.mark, s.finish.scanner, ?_, ?_⟩
  · rw [readLine?_eq hrest, Stream.finish_restart]
    rfl
  · rw [hexhaust, s.remaining_restart, List.map_append, List.map_map, List.map_map]
    simp only [Function.comp_def, Token.mark_shift]
    rfl

/--
A stream can be taken up wherever it has been stopped. After any number of requests the source is
cut at the cursor. Two tokens at most wait in the queue, and they fill the bytes from the end of
the last token that was given up to the cursor; none waits exactly where there are no such bytes.
The queue is given next, and then, request by request, what a new stream of the rest of the source
gives in the modes that are active, moved by the offset of the cursor. Both end in the same modes.
A scan that keeps the whole source and reads it by absolute offsets stands at the same place and
goes on in the same way.
-/
theorem take_start_restart (modes : ModeStack) (source : List Char) (k : Nat) :
    ∃ given s, (Stream.start modes source).take k = (given, s) ∧
      (∃ before, Text.cut? s.offset source = some (before, s.rest)) ∧
      (s.queue.length ≤ 2 ∧ LaidFrom (Token.reach given) s.queue ∧
        Token.reach given + Text.width (s.queue.flatMap Token.text) = s.offset ∧
        (Token.reach given = s.offset ↔ s.queue = [])) ∧
      (∀ n, s.take (s.queue.length + n) =
        (s.queue ++ ((Stream.start s.modes s.rest).take n).1.map (Token.shift s.offset),
          ((Stream.start s.modes s.rest).take n).2.rebase source s.offset)) ∧
      (∃ last, (∀ n, s.remaining.length ≤ n →
          s.take n = (s.queue ++ (tokens s.modes s.rest).map (Token.shift s.offset), last)) ∧
        last.modes = finalModes s.modes s.rest) ∧
      (Text.width source ≤ Span.maxOffset → ∃ scanner again last,
        (Scanner.start modes source).take? k = some (given.map Token.mark, scanner) ∧
        scanner.cursor.pos = s.offset ∧ scanner.modes = s.modes ∧
        scanner.queue = s.queue.map Token.mark ∧
        readLine? s.modes s.rest = some (again, last.modes) ∧
        scanner.exhaust? scanner.fuel =
          some (scanner.queue ++ again.map (Mark.shift s.offset), last)) := by
  have hstopped := (Stream.stopped_start modes source).take k
  have hqueued := hstopped.queued
  refine ⟨_, _, rfl, hstopped.cut?_offset, ⟨hqueued.length_le, hqueued.laid, hqueued.reaches,
    hqueued.eq_offset_iff⟩, ?_, ?_, ?_⟩
  · intro n
    have htake := Stream.take_restart ((Stream.start modes source).take k).2 n
    rw [hstopped.source_eq] at htake
    exact htake
  · refine ⟨((Stream.start modes source).take k).2.finish, ?_, endModes_steps _ _ _⟩
    intro n hn
    rw [Stream.take_eq_remaining hn, Stream.remaining_restart]
    rfl
  · intro hmax
    obtain ⟨again, last, hagain, hlast⟩ := hstopped.exhaust?_scanner hmax
    have hscanner := Stream.take?_scanner hmax (Stream.within_start modes source) k
    rw [scanner_start hmax] at hscanner
    exact ⟨_, again, last, hscanner, rfl, rfl, rfl, hagain, hlast⟩

end Tokenizer
