import Mathlib.Data.List.Chain
import Tokenizer.Proofs.ByteReading
import Tokenizer.Stream

/-!
A stream divides its source. Asked for tokens until there are no more, a stream gives a partition
of its source into tokens, and then stands at the end of the source.
-/
namespace Tokenizer

/-- Byte `n` of the UTF-8 form of `source` starts a character, or is the end. -/
def Text.IsBoundary (source : List Char) (n : Nat) : Prop :=
  String.Pos.Raw.IsValid (String.ofList source) ⟨n⟩

theorem Text.utf8ByteSize_ofList (cs : List Char) :
    (String.ofList cs).utf8ByteSize = Text.width cs := by
  induction cs with
  | nil => rfl
  | cons c cs ih => simp [String.ofList_cons, ih]

theorem Text.isBoundary_width_append (xs ys : List Char) :
    Text.IsBoundary (xs ++ ys) (Text.width xs) := by
  rw [Text.IsBoundary, String.Pos.Raw.isValid_ofList]
  refine ⟨xs.length, ?_⟩
  simp only [List.take_left, Text.utf8ByteSize_ofList]

/-- The tokens cut the source into pieces that touch and leave nothing out. -/
structure Partition (source : List Char) (ts : List Token) : Prop where
  nonempty : ∀ t ∈ ts, t.start < t.stop
  first : ∀ t ∈ ts.head?, t.start = 0
  touching : ts.IsChain fun t u => t.stop = u.start
  last : ∀ t ∈ ts.getLast?, t.stop = Text.width source
  boundary : ∀ t ∈ ts, Text.IsBoundary source t.start ∧ Text.IsBoundary source t.stop
  slice : ∀ t ∈ ts, t.span.slice? source = some t.text
  text : ts.flatMap Token.text = source
  length_le : ts.length ≤ Text.width source

theorem LaidFrom.touching {start : Nat} {ts : List Token} (h : LaidFrom start ts) :
    ts.IsChain fun t u => t.stop = u.start := by
  induction ts generalizing start with
  | nil => exact .nil
  | cons t ts ih =>
    obtain ⟨_, _, hts⟩ := h
    cases ts with
    | nil => exact .singleton t
    | cons u us => exact .cons_cons hts.1.symm (ih hts)

theorem LaidFrom.length_le {start : Nat} {ts : List Token} (h : LaidFrom start ts) :
    ts.length ≤ Text.width (ts.flatMap Token.text) := by
  induction ts generalizing start with
  | nil => simp
  | cons t ts ih =>
    obtain ⟨_, hne, hts⟩ := h
    have hpos := Text.width_pos hne
    have hle := ih hts
    simp only [List.length_cons, List.flatMap_cons, Text.width_append]
    omega

theorem LaidFrom.partition {ts : List Token} (h : LaidFrom 0 ts) :
    Partition (ts.flatMap Token.text) ts where
  nonempty := h.nonempty
  first := by
    intro t ht
    cases ts with
    | nil => simp at ht
    | cons u us =>
      obtain rfl : u = t := by simpa using ht
      exact h.1
  touching := h.touching
  last := by
    intro t ht
    obtain ⟨xs, rfl⟩ := List.getLast?_eq_some_iff.1 ht
    have hstart := h.start_eq
    simp only [Token.stop, hstart, List.flatMap_append, List.flatMap_singleton, Text.width_append]
    omega
  boundary := by
    intro t ht
    obtain ⟨xs, ys, rfl⟩ := List.append_of_mem ht
    have hstart : t.start = Text.width (xs.flatMap Token.text) := by simpa using h.start_eq
    have hstop : t.stop = Text.width (xs.flatMap Token.text ++ t.text) := by
      rw [Token.stop, hstart, Text.width_append]
    simp only [List.flatMap_append, List.flatMap_cons]
    refine ⟨?_, ?_⟩
    · rw [hstart]
      exact Text.isBoundary_width_append _ _
    · rw [hstop, ← List.append_assoc]
      exact Text.isBoundary_width_append _ _
  slice := by
    intro t ht
    obtain ⟨xs, ys, rfl⟩ := List.append_of_mem ht
    have hstart : t.start = Text.width (xs.flatMap Token.text) := by simpa using h.start_eq
    simp only [List.flatMap_append, List.flatMap_cons, Token.span, Token.stop, hstart]
    exact Span.slice?_append _ _ _
  text := rfl
  length_le := h.length_le

theorem partition_tokens (modes : ModeStack) (source : List Char) :
    Partition source (tokens modes source) := by
  have h := (laidFrom_steps 0 modes source).partition
  rw [flatMap_text_tokens_steps] at h
  exact h

namespace Stream

/-- Where a stream ends does not depend on how far it has been read. -/
theorem finish_of_next? {s s' : Stream} {t : Token} (h : s.next? = some (t, s')) :
    s'.finish = s.finish := by
  obtain ⟨ts, -, rfl⟩ | ⟨c, cs, -, hr, -, rfl⟩ := next?_cases h
  · rfl
  · have hwidth := stop_add_width_rest s.offset s.modes c cs
    simp only [finish, advance, hr, steps_cons, endModes, List.foldl_cons, hwidth]

theorem finish_of_next?_eq_none {s : Stream} (h : s.next? = none) : s.finish = s := by
  cases hq : s.queue with
  | cons u us => simp [next?, hq] at h
  | nil =>
    cases hr : s.rest with
    | nil =>
      obtain ⟨source, offset, rest, modes, queue⟩ := s
      obtain ⟨rfl, rfl⟩ : queue = [] ∧ rest = [] := ⟨hq, hr⟩
      simp [finish, endModes]
    | cons c cs => simp [next?, hq, hr] at h

@[simp] theorem next?_finish (s : Stream) : s.finish.next? = none := rfl

/-- Asked often enough, a stream gives all the tokens still to come and stands at its end. -/
theorem take_eq_remaining {n : Nat} {s : Stream} (h : s.remaining.length ≤ n) :
    s.take n = (s.remaining, s.finish) := by
  induction n generalizing s with
  | zero =>
    have hnil : s.remaining = [] := List.eq_nil_of_length_eq_zero (by omega)
    rw [take, hnil, finish_of_next?_eq_none (next?_eq_none_iff.2 hnil)]
  | succ n ih =>
    rw [take]
    split
    · rename_i hnone
      rw [next?_eq_none_iff.1 hnone, finish_of_next?_eq_none hnone]
    · rename_i t s' hsome
      have hrem := remaining_of_next? hsome
      rw [hrem, List.length_cons] at h
      rw [ih (by omega), finish_of_next? hsome, hrem]

end Stream

/--
Asked for tokens until it has no more, the stream of a source gives a partition of the source. It
then has been read to the end, and further requests give nothing. Reading the bytes of the source
without decoding them finds the same spans.
-/
theorem take_start_partition (modes : ModeStack) (source : List Char) :
    ∃ ts last, (∀ n, ts.length ≤ n → (Stream.start modes source).take n = (ts, last)) ∧
      Partition source ts ∧ last.offset = Text.width source ∧ last.next? = none ∧
      readSpans modes (.start (Text.bytes source) 0) = ts.map Token.span := by
  refine ⟨tokens modes source, (Stream.start modes source).finish, ?_, ?_, ?_, ?_, ?_⟩
  · intro n hn
    exact Stream.take_eq_remaining hn
  · exact partition_tokens modes source
  · simp [Stream.finish, Stream.start]
  · exact Stream.next?_finish _
  · exact readSpans_bytes 0 modes source

end Tokenizer
