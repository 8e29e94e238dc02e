import Tokenizer.Proofs.Checked
import Tokenizer.Proofs.Lookahead

/-!
Cursors in a text. Where the bytes of a text can be numbered by offsets, a cursor that stands
between two of its characters reads patterns as they are matched: it never leaves the text, and it
stops between two characters again.
-/
namespace Tokenizer.Checked.Cursor

/-- A cursor in a text that is read to its end. -/
def ofText (source : List Char) (pos : Nat) : Cursor := ⟨Text.bytes source, Text.width source, pos⟩

def ofMatch (source before : List Char) (m : Match) : Cursor :=
  ofText source (Text.width (before ++ m.text))

theorem ahead?_ofText {source : List Char} {pos : Nat} (h : pos ≤ Text.width source) :
    (ofText source pos).ahead? = some ((Text.bytes source).drop pos) := by
  have hlen := Text.length_bytes source
  rw [ahead?, if_pos ⟨h, Nat.le_of_eq hlen.symm⟩]
  simp [ofText, ← hlen]

variable {source : List Char}

theorem ahead?_text {before cs : List Char} (hs : before ++ cs = source) :
    (ofText source (Text.width before)).ahead? = some (Text.bytes cs) := by
  subst hs
  rw [ahead?_ofText (by simp), Text.drop_width_bytes]

theorem split_after_match {a : Pattern} {before cs : List Char} {m : Match}
    (hs : before ++ cs = source) (hm : a.match? cs = some m) :
    (before ++ m.text) ++ m.rest = source := by
  rw [List.append_assoc, a.match?_split hm, hs]

section
variable (hmax : Text.width source ≤ Span.maxOffset)
include hmax

theorem start_eq : start source = ofText source 0 := by
  rw [start, Text.length_bytes, Nat.min_eq_left hmax, ofText]

theorem move?_ofText {pos n : Nat} (h : pos + n ≤ Text.width source) :
    (ofText source pos).move? n = some (ofText source (pos + n)) := by
  have hadd : add? pos n = some (pos + n) := if_pos (Nat.le_trans h hmax)
  simp [move?, ofText, hadd]

theorem skipChar?_text {before cs : List Char} {c : Char} (hs : before ++ c :: cs = source) :
    (ofText source (Text.width before)).skipChar? =
      some (ofText source (Text.width (before ++ [c]))) := by
  obtain ⟨b, bs, hbytes, -, hwidth⟩ := Text.exists_bytes_cons c cs
  have hle : Text.width before + c.utf8Size ≤ Text.width source := by simp [← hs]
  simp [skipChar?, ahead?_text hs, hbytes, hwidth, move?_ofText hmax hle]

/-- A single byte is a whole character if that is within ASCII. -/
theorem pass?_text {stride : Stride} {before cs : List Char} {c : Char}
    (hs : before ++ c :: cs = source) (hstride : stride = .byte → c.toNat < 128) :
    (ofText source (Text.width before)).pass? stride =
      some (ofText source (Text.width (before ++ [c]))) := by
  cases stride with
  | byte =>
    have hsize := utf8Size_of_ascii (hstride rfl)
    have hle : Text.width before + 1 ≤ Text.width source := by
      rw [← hs, Text.width_append, Text.width_cons]
      omega
    rw [pass?, move?_ofText hmax hle, Text.width_append, Text.width_cons, hsize, Text.width_nil]
  | whole => exact skipChar?_text hmax hs

/-- The loop over bytes ends at the first that does not satisfy `p`, be it within a character. -/
theorem eatWhile?_ofText (p : UInt8 → Bool) {n pos : Nat} (hpos : pos ≤ Text.width source)
    (hn : Text.width source - pos < n) :
    eatWhile? p n (ofText source pos) =
      some (ofText source (pos + (((Text.bytes source).drop pos).takeWhile p).length)) := by
  induction n generalizing pos with
  | zero => omega
  | succ n ih =>
    have hlen := Text.length_bytes source
    rw [eatWhile?, ahead?_ofText hpos]
    cases hahead : (Text.bytes source).drop pos with
    | nil => rfl
    | cons b bs =>
      have hdrop := congrArg List.length hahead
      simp only [List.length_drop, List.length_cons] at hdrop
      have hrest : (Text.bytes source).drop (pos + 1) = bs := by
        rw [← List.drop_drop, hahead]
        rfl
      cases hb : p b with
      | false => simp [hb]
      | true =>
        have hmove := move?_ofText hmax (show pos + 1 ≤ Text.width source by omega)
        have hnext := ih (show pos + 1 ≤ Text.width source by omega) (by omega)
        rw [hrest, Nat.add_assoc, Nat.add_comm 1] at hnext
        simp [hb, hmove, hnext]

/-- A run of a uniform class ends between two characters. -/
theorem eatWhile?_text {p : Char → Bool} (hp : Uniform p) {fuel : Nat}
    (hfuel : Text.width source < fuel) {before cs : List Char} (hs : before ++ cs = source) :
    eatWhile? (onByte p) fuel (ofText source (Text.width before)) =
      some (ofText source (Text.width (before ++ cs.takeWhile p))) := by
  have hle : Text.width before ≤ Text.width source := by simp [← hs]
  have hahead : (Text.bytes source).drop (Text.width before) = Text.bytes cs := by
    rw [← hs, Text.drop_width_bytes]
  rw [eatWhile?_ofText hmax _ hle (by omega), hahead, Text.takeWhile_onByte hp, Text.length_bytes,
    Text.width_append]

omit hmax in
/-- The loop over units ends, since every unit uses up text. -/
theorem repeat?_text {unit : Pattern} (hunit : unit.nullable = false)
    {read : Cursor → Option (Option Cursor)}
    (hread : ∀ before cs, before ++ cs = source → read (ofText source (Text.width before)) =
      some ((unit.match? cs).map (ofMatch source before)))
    {n : Nat} {before cs : List Char} (hs : before ++ cs = source) (hn : Text.width cs < n) :
    repeat? read n (ofText source (Text.width before)) =
      some (ofMatch source before (Pattern.repeated unit.match? cs)) := by
  induction n generalizing before cs with
  | zero => omega
  | succ n ih =>
    rw [repeat?, hread before cs hs, Pattern.repeated_of_nullable_eq_false hunit]
    cases hm : unit.match? cs with
    | none => simp [ofMatch]
    | some m =>
      have hpos := Text.width_pos (Pattern.text_ne_nil_of_match? hunit hm)
      have hwidth := congrArg Text.width (unit.match?_split hm)
      rw [Text.width_append] at hwidth
      have hnext := ih (split_after_match hs hm) (by omega)
      simpa [ofMatch, Match.append] using hnext

/-- A cursor reads a pattern as it is matched. -/
theorem read?_text {a : Pattern} (ha : a.Bytewise) {fuel : Nat}
    (hfuel : Text.width source < fuel) {before cs : List Char} (hs : before ++ cs = source) :
    read? fuel a (ofText source (Text.width before)) =
      some ((a.match? cs).map (ofMatch source before)) := by
  induction a generalizing before cs with
  | empty => simp [read?, Pattern.match?, ofMatch]
  | one p stride =>
    obtain ⟨hp, hascii⟩ := Pattern.bytewise_one.1 ha
    rw [read?, ahead?_text hs]
    cases cs with
    | nil => rfl
    | cons c cs =>
      have hhead := Text.any_onByte_head? hp (c :: cs)
      cases hc : p c with
      | true => simp [hhead, hc, pass?_text hmax hs fun h => hascii h c hc, ofMatch]
      | false => simp [hhead, hc]
  | run p =>
    rw [read?, eatWhile?_text hmax ha hfuel hs]
    simp [ofText, sub?, Pattern.match?, ofMatch]
  | run1 p =>
    rw [read?, eatWhile?_text hmax ha hfuel hs]
    cases cs with
    | nil => simp [ofText, sub?]
    | cons c cs =>
      have hpos := c.utf8Size_pos
      cases hc : p c with
      | true => simp [ofText, sub?, ofMatch, hc, Nat.ne_of_gt hpos]
      | false => simp [ofText, sub?, hc]
  | notBefore p =>
    rw [read?, ahead?_text hs, Pattern.match?_notBefore]
    simp only [Option.bind_eq_bind, Option.bind_some, Text.any_onByte_head? ha]
    split <;> simp [ofMatch]
  | seq a b iha ihb =>
    rw [read?, iha ha.1 hs]
    change _ = some (((a ++ b).match? cs).map _)
    rw [Pattern.match?_append]
    cases hm : a.match? cs with
    | none => rfl
    | some m =>
      have hb := ihb ha.2 (split_after_match hs hm)
      simp only [Option.map_some, Option.bind_eq_bind, Option.bind_some, Option.map_map]
      rw [ofMatch, hb]
      congr 2
      funext n
      simp [ofMatch, Match.append]
  | orElse a b iha ihb =>
    rw [read?, iha ha.1 hs, Pattern.match?]
    cases a.match? cs with
    | none => simpa using ihb ha.2 hs
    | some m => rfl
  | many unit ih =>
    -- a unit takes a byte at least, so the fuel lasts for what is left
    have hle : Text.width cs ≤ Text.width source := by simp [← hs]
    have hrepeat := repeat?_text ha.2 (fun _ _ => ih ha.1) hs (show Text.width cs < fuel by omega)
    rw [read?, hrepeat]
    rfl

-- an empty unit is repeated for too long, and a step of one byte can stop inside a character
omit hmax in
example : read? 9 (.many .empty) (start ['1']) = none ∧
    read? 9 (.one fun _ => true) (start ['é']) = some (some { start ['é'] with pos := 1 }) := by
  decide

theorem firstRule?_text {rules : List Rule} (h : ∀ rule ∈ rules, rule.pattern.Bytewise)
    {fuel : Nat} (hfuel : Text.width source < fuel) {before cs : List Char}
    (hs : before ++ cs = source) :
    firstRule? fuel rules (ofText source (Text.width before)) =
      some ((Rule.first? rules cs).map fun found => (found.1, ofMatch source before found.2)) := by
  induction rules with
  | nil => rfl
  | cons rule rules ih =>
    obtain ⟨hrule, hrules⟩ := List.forall_mem_cons.1 h
    rw [firstRule?, read?_text hmax hrule hfuel hs, Rule.first?, List.findSome?_cons, Rule.match?]
    have hrest := ih hrules
    rw [Rule.first?] at hrest
    cases rule.pattern.match? cs with
    | none => simpa using hrest
    | some m =>
      by_cases ht : m.text = []
      · simpa [ofMatch, ofText, ht, Option.filter] using hrest
      · have hpos := Text.width_pos ht
        simp [ofMatch, ofText, ht, hpos, Option.filter]

end

end Tokenizer.Checked.Cursor
