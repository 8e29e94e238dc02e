import Mathlib.Order.Bounds.Basic
import Tokenizer.Proofs.Pointing

/-!
Requests to a reader of bytes. What each operation promises is said by the bytes of the source
alone: which bytes it passes, what it answers, and that it goes neither back nor past the end. A
reader keeps every promise, also where it stands within a character, and over any run of requests.
-/
namespace Tokenizer

namespace ByteReader

inductive Operation where
  | advance
  | advanceChar
  | eat (byte : UInt8)
  | eatIf (p : UInt8 → Bool)
  | eatAll (bytes : List UInt8)
  | eatWhile (p : UInt8 → Bool)
  | eatUpTo (p : UInt8 → Bool) (max : Nat)
  | eatLine

inductive Answer where
  | done
  /-- Whether the bytes asked for came next. -/
  | found (taken : Bool)
  /-- Number of bytes that were passed. -/
  | count (n : Nat)
deriving DecidableEq, Repr

/-- The reader after an attempt, which leaves it where it is if it fails. -/
def tried (r : ByteReader) (next? : Option ByteReader) : Answer × ByteReader :=
  (.found next?.isSome, next?.getD r)

def counted (r next : ByteReader) : Answer × ByteReader := (.count (next.pos - r.pos), next)

def perform (r : ByteReader) : Operation → Answer × ByteReader
  | .advance => (.done, r.advance)
  | .advanceChar => (.done, r.advanceChar)
  | .eat byte => r.tried (r.eatIf? (· == byte))
  | .eatIf p => r.tried (r.eatIf? p)
  | .eatAll bytes => r.tried (r.eatAll? bytes)
  | .eatWhile p => r.counted (r.eatWhile p)
  | .eatUpTo p max => r.counted (r.eatUpTo p max)
  | .eatLine => (.done, r.eatLine)

def performAll : ByteReader → List Operation → List (Answer × ByteReader)
  | _, [] => []
  | r, op :: ops => r.perform op :: (r.perform op).2.performAll ops

end ByteReader

/-! ### What operations promise -/

/-- The first `n` bytes from `pos` on are there, and `p` accepts each of them. -/
def Accepts (source : List Char) (pos : Nat) (p : UInt8 → Bool) (n : Nat) : Prop :=
  n ≤ ((Text.bytes source).drop pos).length ∧
    ∀ b ∈ ((Text.bytes source).drop pos).take n, p b = true

/-- The answer tells whether the bytes came next, and only if they did they are passed. -/
def Passes (came : Prop) (length pos : Nat) (answer : ByteReader.Answer) (next : Nat) : Prop :=
  came ∧ answer = .found true ∧ next = pos + length ∨ ¬came ∧ answer = .found false ∧ next = pos

/-- What an operation at `pos` has to answer, and where it has to go. -/
def ByteReader.Operation.Promises (source : List Char) (pos : Nat) (answer : Answer) (next : Nat) :
    Operation → Prop
  | advance => answer = .done ∧ next = min (pos + 1) (Text.width source)
  | advanceChar =>
    answer = .done ∧ (Text.IsBoundary source pos → pos < Text.width source →
      IsLeast {n | pos < n ∧ Text.IsBoundary source n} next)
  | eat byte => Passes ((Text.bytes source)[pos]? = some byte) 1 pos answer next
  | eatIf p => Passes (∃ b, (Text.bytes source)[pos]? = some b ∧ p b = true) 1 pos answer next
  | eatAll bytes =>
    Passes (bytes <+: (Text.bytes source).drop pos) bytes.length pos answer next
  | eatWhile p =>
    answer = .count (next - pos) ∧ IsGreatest {n | Accepts source pos p n} (next - pos)
  | eatUpTo p max =>
    answer = .count (next - pos) ∧ IsGreatest {n | n ≤ max ∧ Accepts source pos p n} (next - pos)
  -- the end of the line is where eating all other bytes would lead
  | eatLine =>
    answer = .done ∧
      IsGreatest {n | Accepts source pos (fun b => b != 10 && b != 13) n} (next - pos)

/-- Answers and offsets that go on from `pos` as promised, and never back or past the end. -/
inductive Moves (source : List Char) :
    Nat → List ByteReader.Operation → List (ByteReader.Answer × Nat) → Prop
  | nil (pos : Nat) : Moves source pos [] []
  | cons {pos next : Nat} {op : ByteReader.Operation} {answer : ByteReader.Answer}
      {ops : List ByteReader.Operation} {trace : List (ByteReader.Answer × Nat)} :
      pos ≤ next → next ≤ Text.width source → op.Promises source pos answer next →
      Moves source next ops trace → Moves source pos (op :: ops) ((answer, next) :: trace)

/-! ### Readers in a source -/

/-- The bytes that a run takes are the longest prefix that is accepted. -/
theorem isGreatest_length_takeWhile (p : UInt8 → Bool) (bytes : List UInt8) (max : Nat) :
    IsGreatest {n | n ≤ max ∧ n ≤ bytes.length ∧ ∀ b ∈ bytes.take n, p b = true}
      ((bytes.take max).takeWhile p).length := by
  have hrun : (bytes.take max).takeWhile p <+: bytes.take max := List.takeWhile_prefix p
  constructor
  · have hle := hrun.length_le
    rw [List.length_take] at hle
    have htake : bytes.take ((bytes.take max).takeWhile p).length = (bytes.take max).takeWhile p :=
      (List.prefix_iff_eq_take.1 (hrun.trans (List.take_prefix max bytes))).symm
    refine ⟨by omega, by omega, ?_⟩
    intro b hb
    rw [htake] at hb
    exact List.mem_takeWhile_imp hb
  · rintro n ⟨hmax, hlength, hall⟩
    obtain ⟨rest, hrest⟩ : bytes.take n <+: bytes.take max := List.take_prefix_take_left hmax
    rw [← hrest, List.takeWhile_append_of_pos hall, List.length_append, List.length_take]
    omega

theorem Text.width_le_of_prefix {xs ys : List Char} (h : xs <+: ys) : width xs ≤ width ys := by
  obtain ⟨rest, rfl⟩ := h
  rw [width_append]
  omega

namespace ByteReader

/-- Moving on from an offset leads to an offset of the same bytes, and not past their end. -/
theorem move_start (bytes : List UInt8) (pos n : Nat) :
    (start bytes pos).move n = start bytes (pos + min n (bytes.length - pos)) := by
  have hahead : bytes.drop (pos + n) = bytes.drop (pos + min n (bytes.length - pos)) := by
    by_cases hle : n ≤ bytes.length - pos
    · rw [Nat.min_eq_left hle]
    · have hend : bytes.length ≤ pos + min n (bytes.length - pos) := by omega
      rw [List.drop_eq_nil_of_le hend, List.drop_eq_nil_of_le (by omega)]
  unfold start move
  rw [List.length_drop, List.drop_drop, hahead]

theorem move_start_of_le {bytes : List UInt8} {pos n : Nat} (h : n ≤ (bytes.drop pos).length) :
    (start bytes pos).move n = start bytes (pos + n) := by
  rw [List.length_drop] at h
  rw [move_start, Nat.min_eq_left h]

variable {source : List Char} {pos : Nat}

theorem one_le_of_any (p : UInt8 → Bool) (h : (Text.bytes source)[pos]?.any p = true) :
    1 ≤ ((Text.bytes source).drop pos).length := by
  rw [Option.any_eq_true] at h
  obtain ⟨b, hb, -⟩ := h
  obtain ⟨hlt, -⟩ := List.getElem?_eq_some_iff.1 hb
  rw [List.length_drop]
  omega

theorem eatIf?_start (p : UInt8 → Bool) :
    (start (Text.bytes source) pos).eatIf? p =
      if (Text.bytes source)[pos]?.any p then some (start (Text.bytes source) (pos + 1))
      else none := by
  unfold eatIf?
  rw [start, List.head?_drop]
  split
  next hany => exact congrArg some (move_start_of_le (one_le_of_any p hany))
  next => rfl

theorem eatAll?_start (bytes : List UInt8) :
    (start (Text.bytes source) pos).eatAll? bytes =
      if bytes.isPrefixOf ((Text.bytes source).drop pos) then
        some (start (Text.bytes source) (pos + bytes.length))
      else
        none := by
  unfold eatAll?
  rw [start]
  split
  next hprefix =>
    have hle := (List.isPrefixOf_iff_prefix.1 hprefix).length_le
    exact congrArg some (move_start_of_le hle)
  next => rfl

theorem eatUpTo_start (p : UInt8 → Bool) (max : Nat) :
    (start (Text.bytes source) pos).eatUpTo p max =
      start (Text.bytes source)
        (pos + ((((Text.bytes source).drop pos).take max).takeWhile p).length) := by
  have hle := (isGreatest_length_takeWhile p ((Text.bytes source).drop pos) max).1.2.1
  unfold eatUpTo runLength
  exact move_start_of_le hle

theorem eatWhile_start (p : UInt8 → Bool) :
    (start (Text.bytes source) pos).eatWhile p =
      start (Text.bytes source)
        (pos + (((Text.bytes source).drop pos).takeWhile p).length) := by
  have hall : ((Text.bytes source).drop pos).take (start (Text.bytes source) pos).ahead.length =
      (Text.bytes source).drop pos := List.take_length
  unfold eatWhile
  rw [eatUpTo_start, hall]

theorem counted_start (bytes : List UInt8) (pos n : Nat) :
    (start bytes pos).counted (start bytes (pos + n)) = (.count n, start bytes (pos + n)) := by
  unfold counted
  change (Answer.count (pos + n - pos), _) = _
  rw [Nat.add_sub_cancel_left]

/-! ### The promises are kept -/

theorem isGreatest_accepts (source : List Char) (pos : Nat) (p : UInt8 → Bool) :
    IsGreatest {n | Accepts source pos p n}
      (((Text.bytes source).drop pos).takeWhile p).length := by
  have hgreatest := isGreatest_length_takeWhile p ((Text.bytes source).drop pos)
    ((Text.bytes source).drop pos).length
  rw [List.take_length] at hgreatest
  constructor
  · exact hgreatest.1.2
  · intro n hn
    exact hgreatest.2 ⟨hn.1, hn⟩

/-- From between two characters a character is passed, and no place between two others. -/
theorem isLeast_boundary_advanceChar (hboundary : Text.IsBoundary source pos)
    (hlt : pos < Text.width source) :
    IsLeast {n | pos < n ∧ Text.IsBoundary source n}
      (start (Text.bytes source) pos).advanceChar.pos := by
  obtain ⟨before, after, rfl, rfl⟩ := hboundary.exists_append
  cases after with
  | nil => simp at hlt
  | cons c cs =>
    have hpos := c.utf8Size_pos
    have hnext : (start (Text.bytes (before ++ c :: cs)) (Text.width before)).advanceChar.pos =
        Text.width (before ++ [c]) := by
      rw [start, Text.drop_width_bytes, advanceChar_bytes, Text.width_append]
      rfl
    rw [hnext]
    constructor
    · refine ⟨by simpa using hpos, ?_⟩
      have hsource : before ++ c :: cs = (before ++ [c]) ++ cs := by simp
      rw [hsource]
      exact Text.isBoundary_width_append _ _
    · rintro n ⟨hn, hboundary⟩
      obtain ⟨front, back, hsource, rfl⟩ := hboundary.exists_append
      have hfront : front <+: before ++ c :: cs := by
        rw [hsource]
        exact List.prefix_append front back
      have hchar : before ++ [c] <+: before ++ c :: cs := by
        rw [List.prefix_append_right_inj]
        exact List.prefix_append [c] cs
      -- were no more than the characters before this one in front of `n`, it would not be passed
      by_cases hle : front.length ≤ before.length
      · have hshort := List.prefix_of_prefix_length_le hfront (List.prefix_append before _) hle
        have hwidth := Text.width_le_of_prefix hshort
        omega
      · have hlength : (before ++ [c]).length ≤ front.length := by
          rw [List.length_append, List.length_singleton]
          omega
        exact Text.width_le_of_prefix (List.prefix_of_prefix_length_le hchar hfront hlength)

/-- After an operation at `pos` the reader is in the source, where the operation promises. -/
structure Operation.Kept (source : List Char) (pos : Nat) (op : Operation)
    (outcome : Answer × ByteReader) : Prop where
  reader : outcome.2 = start (Text.bytes source) outcome.2.pos
  forward : pos ≤ outcome.2.pos
  within : outcome.2.pos ≤ Text.width source
  promises : op.Promises source pos outcome.1 outcome.2.pos

theorem kept_start {op : Operation} {answer : Answer} {next : Nat} (hforward : pos ≤ next)
    (hwithin : next ≤ Text.width source) (h : op.Promises source pos answer next) :
    op.Kept source pos (answer, start (Text.bytes source) next) where
  reader := rfl
  forward := hforward
  within := hwithin
  promises := h

section
variable (hpos : pos ≤ Text.width source)
include hpos

theorem add_le_width {n : Nat} (h : n ≤ ((Text.bytes source).drop pos).length) :
    pos + n ≤ Text.width source := by
  rw [List.length_drop, Text.length_bytes] at h
  omega

/-- An attempt at bytes that are there passes them, and one at others stays where it is. -/
theorem kept_tried {op : Operation} {came : Prop} [Decidable came] {length : Nat}
    (hcame : came → length ≤ ((Text.bytes source).drop pos).length)
    (hop : ∀ answer next, Passes came length pos answer next → op.Promises source pos answer next) :
    op.Kept source pos ((start (Text.bytes source) pos).tried
      (if came then some (start (Text.bytes source) (pos + length)) else none)) := by
  by_cases h : came
  · rw [if_pos h]
    apply kept_start (Nat.le_add_right _ _) (add_le_width hpos (hcame h))
    exact hop _ _ (.inl ⟨h, rfl, rfl⟩)
  · rw [if_neg h]
    apply kept_start (Nat.le_refl _) hpos
    exact hop _ _ (.inr ⟨h, rfl, rfl⟩)

/-- A reader in a source keeps the promise of every operation. -/
theorem kept_perform (op : Operation) :
    op.Kept source pos ((start (Text.bytes source) pos).perform op) := by
  have hlength := Text.length_bytes source
  have hend : ∀ n, pos + min n ((Text.bytes source).length - pos) ≤ Text.width source := by
    intro n
    omega
  cases op with
  | advance =>
    rw [perform, advance, move_start]
    apply kept_start (Nat.le_add_right _ _) (hend 1)
    refine ⟨rfl, ?_⟩
    omega
  | advanceChar =>
    rw [perform, advanceChar, move_start]
    apply kept_start (Nat.le_add_right _ _) (hend _)
    refine ⟨rfl, ?_⟩
    intro hboundary hlt
    have hleast := isLeast_boundary_advanceChar hboundary hlt
    rw [advanceChar, move_start] at hleast
    exact hleast
  | eat byte =>
    rw [perform, eatIf?_start]
    apply kept_tried hpos (one_le_of_any _)
    intro answer next hpasses
    have hbyte : (Text.bytes source)[pos]?.any (· == byte) = true ↔
        (Text.bytes source)[pos]? = some byte := by
      rw [Option.any_eq_true]
      simp
    rw [hbyte] at hpasses
    exact hpasses
  | eatIf p =>
    rw [perform, eatIf?_start]
    apply kept_tried hpos (one_le_of_any p)
    intro answer next hpasses
    rw [Option.any_eq_true] at hpasses
    exact hpasses
  | eatAll bytes =>
    rw [perform, eatAll?_start]
    apply kept_tried hpos
    · intro hprefix
      exact (List.isPrefixOf_iff_prefix.1 hprefix).length_le
    · intro answer next hpasses
      rw [List.isPrefixOf_iff_prefix] at hpasses
      exact hpasses
  | eatWhile p =>
    have hgreatest := isGreatest_accepts source pos p
    rw [perform, eatWhile_start, counted_start]
    apply kept_start (Nat.le_add_right _ _) (add_le_width hpos hgreatest.1.1)
    unfold Operation.Promises
    rw [Nat.add_sub_cancel_left]
    exact ⟨rfl, hgreatest⟩
  | eatUpTo p max =>
    have hgreatest := isGreatest_length_takeWhile p ((Text.bytes source).drop pos) max
    rw [perform, eatUpTo_start, counted_start]
    apply kept_start (Nat.le_add_right _ _) (add_le_width hpos hgreatest.1.2.1)
    unfold Operation.Promises
    rw [Nat.add_sub_cancel_left]
    exact ⟨rfl, hgreatest⟩
  | eatLine =>
    have hgreatest := isGreatest_accepts source pos (!isLineBreak ·)
    have hbreaks : (fun b : UInt8 => b != 10 && b != 13) = (!isLineBreak ·) := by
      funext b
      simp [isLineBreak, bne]
    rw [perform, eatLine, eatWhile_start]
    apply kept_start (Nat.le_add_right _ _) (add_le_width hpos hgreatest.1.1)
    unfold Operation.Promises
    rw [Nat.add_sub_cancel_left, hbreaks]
    exact ⟨rfl, hgreatest⟩

end

/-- A run of requests goes on as each of them promises. -/
theorem moves_performAll {source : List Char} {pos : Nat}
    (hpos : pos ≤ Text.width source) (ops : List Operation) :
    Moves source pos ops (((start (Text.bytes source) pos).performAll ops).map fun met =>
      (met.1, met.2.pos)) := by
  induction ops generalizing pos with
  | nil => exact .nil pos
  | cons op ops ih =>
    have hkept := kept_perform hpos op
    have hrest := ih hkept.within
    rw [← hkept.reader] at hrest
    exact .cons hkept.forward hkept.within hkept.promises hrest

end ByteReader
end Tokenizer
