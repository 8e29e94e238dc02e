import Tokenizer.Proofs.Cursor
import Tokenizer.Proofs.ReaderOperation

/-!
Requests to a cursor with checks. Where the bytes of a source can be numbered by offsets, every
sequence of requests can be met: no offset leaves its range, no look-up misses, every loop ends, and
the cursor moves as a reader does that counts without limits.
-/
namespace Tokenizer

/-! ### Operations with checks -/

namespace Checked.Cursor

/-- The search finds the first byte that is either of two, if there is one. -/
def FindsFirst (find : UInt8 → UInt8 → List UInt8 → Option Nat) : Prop :=
  ∀ a b bytes, find a b bytes = bytes.findIdx? fun x => x == a || x == b

/-- A length cut down to 32 bits. -/
def wrap (n : Nat) : Nat := n % (Span.maxOffset + 1)

/-- A cursor at an offset, which must not lie past the end. -/
def startAt? (source : List Char) (pos : Nat) : Option Cursor :=
  if pos ≤ (start source).limit then some { start source with pos } else none

def current? (c : Cursor) : Option UInt8 := if c.pos < c.limit then c.bytes[c.pos]? else some 0

def advance? (c : Cursor) : Option Cursor := if c.pos < c.limit then c.move? 1 else some c

def advanceChar? (c : Cursor) : Option Cursor :=
  if c.atEnd then some c
  else do
    let b ← c.current?
    -- the sum stops at the greatest offset, and the cursor at the end
    return { c with pos := min (min (c.pos + ByteReader.charWidth b) Span.maxOffset) c.limit }

def eatIf? (p : UInt8 → Bool) (c : Cursor) : Option (Bool × Cursor) :=
  if c.atEnd then some (false, c)
  else do
    let b ← c.current?
    if p b then
      let next ← c.move? 1
      return (true, next)
    else
      return (false, c)

def eatAll? (bytes : List UInt8) (c : Cursor) : Option (Bool × Cursor) := do
  let ahead ← c.ahead?
  if bytes.isPrefixOf ahead then
    let next ← c.move? (wrap bytes.length)
    return (true, next)
  else
    return (false, c)

def eatUpTo? (p : UInt8 → Bool) (max start : Nat) : Nat → Cursor → Option Cursor
  | 0, _ => none
  | n + 1, c => do
    let passed ← sub? c.pos start
    if passed < max ∧ c.atEnd = false then
      let b ← c.current?
      if p b then
        let next ← c.move? 1
        eatUpTo? p max start n next
      else
        return c
    else
      return c

def eatLine? (find : UInt8 → UInt8 → List UInt8 → Option Nat) (c : Cursor) : Option Cursor := do
  let ahead ← c.ahead?
  match find 10 13 ahead with
  | some n => c.move? (wrap n)
  | none => return { c with pos := c.limit }

def perform? (find : UInt8 → UInt8 → List UInt8 → Option Nat) (c : Cursor) :
    ByteReader.Operation → Option (ByteReader.Answer × Cursor)
  | .advance => do
    let next ← c.advance?
    return (.done, next)
  | .advanceChar => do
    let next ← c.advanceChar?
    return (.done, next)
  | .eat byte => do
    let (taken, next) ← c.eatIf? (· == byte)
    return (.found taken, next)
  | .eatIf p => do
    let (taken, next) ← c.eatIf? p
    return (.found taken, next)
  | .eatAll bytes => do
    let (taken, next) ← c.eatAll? bytes
    return (.found taken, next)
  | .eatWhile p => do
    let next ← c.eatWhile? p (c.limit + 1)
    let n ← sub? next.pos c.pos
    return (.count n, next)
  | .eatUpTo p max => do
    let next ← c.eatUpTo? p max c.pos (c.limit + 1)
    let n ← sub? next.pos c.pos
    return (.count n, next)
  | .eatLine => do
    let next ← c.eatLine? find
    return (.done, next)

def performAll? (find : UInt8 → UInt8 → List UInt8 → Option Nat) :
    List ByteReader.Operation → Cursor → Option (List (ByteReader.Answer × Cursor))
  | [], _ => some []
  | op :: ops, c => do
    let (answer, next) ← c.perform? find op
    let trace ← performAll? find ops next
    return (answer, next) :: trace

end Checked.Cursor

/-! ### Checks hold -/

theorem findIdx?_eq_length_takeWhile (p : UInt8 → Bool) (bytes : List UInt8) :
    bytes.findIdx? p =
      if (bytes.takeWhile (!p ·)).length < bytes.length then
        some (bytes.takeWhile (!p ·)).length
      else
        none := by
  induction bytes with
  | nil => rfl
  | cons b bytes ih =>
    rw [List.findIdx?_cons, ih]
    cases hb : p b with
    | true => simp [hb]
    | false => by_cases hlt : (bytes.takeWhile (!p ·)).length < bytes.length <;> simp [hb, hlt]

namespace Checked.Cursor

variable {source : List Char} {pos : Nat}

theorem current?_ofText (h : pos < Text.width source) :
    (ofText source pos).current? = (Text.bytes source)[pos]? := by
  unfold current?
  exact if_pos h

theorem exists_byte (h : pos < Text.width source) :
    ∃ b, (Text.bytes source)[pos]? = some b := by
  rw [← Text.length_bytes] at h
  exact ⟨_, List.getElem?_eq_getElem h⟩

theorem atEnd_ofText_of_lt (h : pos < Text.width source) : (ofText source pos).atEnd = false :=
  decide_eq_false (Nat.not_le.2 h)

theorem atEnd_ofText_of_le (h : Text.width source ≤ pos) : (ofText source pos).atEnd = true :=
  decide_eq_true h

theorem wrap_of_le {n : Nat} (h : n ≤ Span.maxOffset) : wrap n = n :=
  Nat.mod_eq_of_lt (Nat.lt_succ_of_le h)

section
variable (hmax : Text.width source ≤ Span.maxOffset)
include hmax

theorem advance?_ofText :
    (ofText source pos).advance? =
      some (ofText source (ByteReader.start (Text.bytes source) pos).advance.pos) := by
  have hlength := Text.length_bytes source
  unfold advance? ByteReader.advance
  rw [ByteReader.move_start]
  change (if pos < Text.width source then _ else _) =
    some (ofText source (pos + min 1 ((Text.bytes source).length - pos)))
  split
  next hlt =>
    have hnext : pos + min 1 ((Text.bytes source).length - pos) = pos + 1 := by omega
    rw [hnext]
    exact move?_ofText hmax hlt
  next hge =>
    have hnext : pos + min 1 ((Text.bytes source).length - pos) = pos := by omega
    rw [hnext]

/-- The sum of offset and width may pass the end, but the cursor stops there. -/
theorem advanceChar?_ofText (hpos : pos ≤ Text.width source) :
    (ofText source pos).advanceChar? =
      some (ofText source (ByteReader.start (Text.bytes source) pos).advanceChar.pos) := by
  have hlength := Text.length_bytes source
  unfold advanceChar? ByteReader.advanceChar
  rw [ByteReader.move_start]
  by_cases hlt : pos < Text.width source
  · obtain ⟨b, hb⟩ := exists_byte hlt
    have hcurrent : (ByteReader.start (Text.bytes source) pos).current = b := by
      unfold ByteReader.current ByteReader.start
      rw [List.headD_eq_head?_getD, List.head?_drop, hb]
      rfl
    have hnext : min (min (pos + ByteReader.charWidth b) Span.maxOffset) (Text.width source) =
        pos + min (ByteReader.charWidth b) ((Text.bytes source).length - pos) := by omega
    rw [atEnd_ofText_of_lt hlt, current?_ofText hlt, hb, hcurrent]
    change some (ofText source (min (min (pos + ByteReader.charWidth b) Span.maxOffset)
      (Text.width source))) = some (ofText source (pos + _))
    rw [hnext]
  · have hstay : (Text.bytes source).length - pos = 0 := by omega
    rw [atEnd_ofText_of_le (Nat.not_lt.1 hlt), hstay, Nat.min_zero]
    rfl

theorem eatIf?_ofText (p : UInt8 → Bool) :
    (ofText source pos).eatIf? p =
      if (Text.bytes source)[pos]?.any p then some (true, ofText source (pos + 1))
      else some (false, ofText source pos) := by
  unfold eatIf?
  by_cases hlt : pos < Text.width source
  · obtain ⟨b, hb⟩ := exists_byte hlt
    rw [atEnd_ofText_of_lt hlt, current?_ofText hlt, hb]
    have hmove := move?_ofText hmax (show pos + 1 ≤ Text.width source from hlt)
    cases hp : p b with
    | true => simp [hp, hmove]
    | false => simp [hp]
  · have hnone : (Text.bytes source)[pos]? = none := by
      rw [List.getElem?_eq_none_iff, Text.length_bytes]
      omega
    rw [atEnd_ofText_of_le (Nat.not_lt.1 hlt), hnone]
    rfl

theorem eatAll?_ofText (hpos : pos ≤ Text.width source) (bytes : List UInt8) :
    (ofText source pos).eatAll? bytes =
      if bytes.isPrefixOf ((Text.bytes source).drop pos) then
        some (true, ofText source (pos + bytes.length))
      else
        some (false, ofText source pos) := by
  unfold eatAll?
  rw [ahead?_ofText hpos]
  simp only [Option.bind_eq_bind, Option.bind_some]
  split
  next hprefix =>
    have hle := (List.isPrefixOf_iff_prefix.1 hprefix).length_le
    rw [List.length_drop, Text.length_bytes] at hle
    rw [wrap_of_le (by omega), move?_ofText hmax (by omega)]
    rfl
  next => rfl

/-- The loop ends at the first byte that `p` refuses, or when `max` bytes have been passed. -/
theorem eatUpTo?_ofText (p : UInt8 → Bool) (max : Nat) {n start : Nat} (hstart : start ≤ pos)
    (hpos : pos ≤ Text.width source) (hn : Text.width source - pos < n) :
    eatUpTo? p max start n (ofText source pos) =
      some (ofText source (pos +
        ((((Text.bytes source).drop pos).take (max - (pos - start))).takeWhile p).length)) := by
  induction n generalizing pos with
  | zero => omega
  | succ n ih =>
    have hsub : sub? (ofText source pos).pos start = some (pos - start) := if_pos hstart
    unfold eatUpTo?
    rw [hsub]
    simp only [Option.bind_eq_bind, Option.bind_some]
    by_cases hgo : pos - start < max ∧ pos < Text.width source
    · obtain ⟨hfew, hlt⟩ := hgo
      obtain ⟨b, hb⟩ := exists_byte hlt
      have hahead : (Text.bytes source).drop pos = b :: (Text.bytes source).drop (pos + 1) := by
        obtain ⟨hbound, hget⟩ := List.getElem?_eq_some_iff.1 hb
        rw [List.drop_eq_getElem_cons hbound, hget]
      have hleft : max - (pos - start) = max - (pos + 1 - start) + 1 := by omega
      rw [if_pos ⟨hfew, atEnd_ofText_of_lt hlt⟩, current?_ofText hlt, hb, hahead, hleft,
        List.take_succ_cons]
      simp only [Option.bind_some]
      cases hp : p b with
      | true =>
        have hnext := ih (by omega) (show pos + 1 ≤ Text.width source by omega) (by omega)
        rw [if_pos rfl, move?_ofText hmax hlt, Option.bind_some, hnext,
          List.takeWhile_cons_of_pos hp, List.length_cons]
        congr 2
        omega
      | false =>
        rw [List.takeWhile_cons_of_neg (by simp [hp])]
        rfl
    · have hstop : ¬(pos - start < max ∧ (ofText source pos).atEnd = false) := by
        rintro ⟨hfew, hend⟩
        have hlt := of_decide_eq_false hend
        exact hgo ⟨hfew, Nat.not_le.1 hlt⟩
      have hnone : ((Text.bytes source).drop pos).take (max - (pos - start)) = [] := by
        rw [List.take_eq_nil_iff, List.drop_eq_nil_iff, Text.length_bytes]
        omega
      rw [if_neg hstop, hnone]
      rfl

theorem eatLine?_ofText {find : UInt8 → UInt8 → List UInt8 → Option Nat} (hfind : FindsFirst find)
    (hpos : pos ≤ Text.width source) :
    (ofText source pos).eatLine? find =
      some (ofText source (ByteReader.start (Text.bytes source) pos).eatLine.pos) := by
  have hlength := Text.length_bytes source
  have hsearch := findIdx?_eq_length_takeWhile ByteReader.isLineBreak ((Text.bytes source).drop pos)
  have hle := (List.takeWhile_prefix (!ByteReader.isLineBreak ·)
    (l := (Text.bytes source).drop pos)).length_le
  unfold eatLine? ByteReader.eatLine
  rw [ahead?_ofText hpos, ByteReader.eatWhile_start]
  simp only [Option.bind_eq_bind, Option.bind_some]
  rw [hfind]
  change (match ((Text.bytes source).drop pos).findIdx? ByteReader.isLineBreak with
    | some n => (ofText source pos).move? (wrap n)
    | none => some (ofText source (Text.width source))) = some (ofText source (pos + _))
  rw [hsearch]
  generalize (((Text.bytes source).drop pos).takeWhile (!ByteReader.isLineBreak ·)).length = n
    at hle ⊢
  rw [List.length_drop] at hle ⊢
  by_cases hlt : n < (Text.bytes source).length - pos
  · rw [if_pos hlt]
    change (ofText source pos).move? (wrap n) = some (ofText source (pos + n))
    rw [wrap_of_le (by omega), move?_ofText hmax (by omega)]
  · have hend : pos + n = Text.width source := by omega
    rw [if_neg hlt, hend]

/-- A request with checks is met as the reader meets it. -/
theorem perform?_ofText {find : UInt8 → UInt8 → List UInt8 → Option Nat} (hfind : FindsFirst find)
    (hpos : pos ≤ Text.width source) (op : ByteReader.Operation) :
    (ofText source pos).perform? find op =
      some (((ByteReader.start (Text.bytes source) pos).perform op).1,
        ofText source ((ByteReader.start (Text.bytes source) pos).perform op).2.pos) := by
  have hfuel : Text.width source - pos < (ofText source pos).limit + 1 := by
    change Text.width source - pos < Text.width source + 1
    omega
  have hcount : ∀ n, sub? (ofText source (pos + n)).pos (ofText source pos).pos = some n := by
    intro n
    change sub? (pos + n) pos = some n
    rw [sub?, if_pos (Nat.le_add_right _ _), Nat.add_sub_cancel_left]
  cases op with
  | advance =>
    rw [perform?, advance?_ofText hmax]
    rfl
  | advanceChar =>
    rw [perform?, advanceChar?_ofText hmax hpos]
    rfl
  | eat byte =>
    rw [perform?, eatIf?_ofText hmax, ByteReader.perform, ByteReader.eatIf?_start]
    split <;> rfl
  | eatIf p =>
    rw [perform?, eatIf?_ofText hmax, ByteReader.perform, ByteReader.eatIf?_start]
    split <;> rfl
  | eatAll bytes =>
    rw [perform?, eatAll?_ofText hmax hpos, ByteReader.perform, ByteReader.eatAll?_start]
    split <;> rfl
  | eatWhile p =>
    rw [perform?, eatWhile?_ofText hmax p hpos hfuel, ByteReader.perform,
      ByteReader.eatWhile_start]
    simp only [Option.bind_eq_bind, Option.bind_some, hcount, ByteReader.counted_start]
    rfl
  | eatUpTo p max =>
    have hloop := eatUpTo?_ofText hmax p max (Nat.le_refl pos) hpos hfuel
    rw [Nat.sub_self, Nat.sub_zero] at hloop
    change ((ofText source pos).eatUpTo? p max pos _).bind _ = _
    rw [hloop, ByteReader.perform, ByteReader.eatUpTo_start]
    simp only [Option.bind_eq_bind, Option.bind_some, hcount, ByteReader.counted_start]
    rfl
  | eatLine =>
    rw [perform?, eatLine?_ofText hmax hfind hpos]
    rfl

theorem performAll?_ofText {find : UInt8 → UInt8 → List UInt8 → Option Nat}
    (hfind : FindsFirst find) (hpos : pos ≤ Text.width source) (ops : List ByteReader.Operation) :
    performAll? find ops (ofText source pos) =
      some (((ByteReader.start (Text.bytes source) pos).performAll ops).map fun met =>
        (met.1, ofText source met.2.pos)) := by
  induction ops generalizing pos with
  | nil => rfl
  | cons op ops ih =>
    have hkept := ByteReader.kept_perform hpos op
    have hrest := ih hkept.within
    rw [← hkept.reader] at hrest
    rw [performAll?, perform?_ofText hmax hfind hpos]
    simp only [Option.bind_eq_bind, Option.bind_some, hrest]
    rfl

theorem startAt?_eq (hpos : pos ≤ Text.width source) :
    startAt? source pos = some (ofText source pos) := by
  unfold startAt?
  rw [start_eq hmax]
  exact if_pos hpos

end

end Checked.Cursor

/--
A cursor at any place of a source whose bytes can be numbered by offsets meets every sequence of
requests. No offset leaves its range, no look-up misses and every loop ends. The answers and the
places are those of a reader without checks, and they are what the operations promise: the cursor
never goes back or past the end, it stays where it is if an attempt fails, the counts are the
longest runs of accepted bytes, the end of the line is where eating all but line breaks leads, and
from between two characters one character is passed.
-/
theorem performAll?_moves {source : List Char} (hmax : Text.width source ≤ Span.maxOffset)
    {pos : Nat} (hpos : pos ≤ Text.width source)
    {find : UInt8 → UInt8 → List UInt8 → Option Nat} (hfind : Checked.Cursor.FindsFirst find)
    (ops : List ByteReader.Operation) :
    (Checked.Cursor.startAt? source pos).bind (Checked.Cursor.performAll? find ops) =
      some (((ByteReader.start (Text.bytes source) pos).performAll ops).map fun met =>
        (met.1, Checked.Cursor.ofText source met.2.pos)) ∧
    Moves source pos ops (((ByteReader.start (Text.bytes source) pos).performAll ops).map
      fun met => (met.1, met.2.pos)) := by
  constructor
  · rw [Checked.Cursor.startAt?_eq hmax hpos, Option.bind_some]
    exact Checked.Cursor.performAll?_ofText hmax hfind hpos ops
  · exact ByteReader.moves_performAll hpos ops

/-- A cursor that starts within a letter of two bytes, and looks for bytes that do not come. -/
theorem performAll?_moves_within_letter :
    Text.width ['é', '\n', 'x'] ≤ Span.maxOffset ∧ 1 ≤ Text.width ['é', '\n', 'x'] ∧
      ((Checked.Cursor.startAt? ['é', '\n', 'x'] 1).bind (Checked.Cursor.performAll?
          (fun a b bytes => bytes.findIdx? fun x => x == a || x == b)
          [.eatAll [10], .eatLine, .advanceChar, .eatUpTo (fun _ => true) 9])).map
        (·.map fun met => (met.1, met.2.pos)) =
        some [(.found false, 1), (.done, 2), (.done, 3), (.count 1, 4)] := by
  have hmax : Text.width ['é', '\n', 'x'] ≤ Span.maxOffset := by decide
  have hpos : 1 ≤ Text.width ['é', '\n', 'x'] := by decide
  have hrun := (performAll?_moves hmax hpos (fun _ _ _ => rfl)
    [.eatAll [10], .eatLine, .advanceChar, .eatUpTo (fun _ => true) 9]).1
  refine ⟨hmax, hpos, ?_⟩
  rw [hrun]
  decide +kernel

end Tokenizer
