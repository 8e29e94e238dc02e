import Tokenizer.Proofs.Encoding
import Tokenizer.Proofs.Layout
import Tokenizer.Proofs.Lookahead

/-!
Scanning bytes. Patterns can be read from bytes without decoding them: a step takes one byte or, by
the width that the first byte tells, one character, and a run goes on byte by byte. On the bytes of
a text this finds the same places as matching its characters does, so every token of the text starts
and ends between two characters.
-/
namespace Tokenizer

def ByteReader.pass (r : ByteReader) : Stride → ByteReader
  | .byte => r.advance
  | .whole => r.advanceChar

namespace Pattern

def readRepeatedly (unit : ByteReader → Option ByteReader) (r : ByteReader) : ByteReader :=
  match unit r with
  | none => r
  | some next =>
    if next.ahead.length < r.ahead.length then readRepeatedly unit next else r
termination_by r.ahead.length

def read? : Pattern → ByteReader → Option ByteReader
  | empty, r => some r
  | one p stride, r => if r.ahead.head?.any (onByte p) then some (r.pass stride) else none
  | run p, r => some (r.eatWhile (onByte p))
  | run1 p, r =>
    let next := r.eatWhile (onByte p)
    if r.pos < next.pos then some next else none
  | notBefore p, r => if r.ahead.head?.any (onByte p) then none else some r
  | seq a b, r => (a.read? r).bind b.read?
  | orElse a b, r => (a.read? r).or (b.read? r)
  | many unit, r => some (readRepeatedly unit.read? r)

end Pattern

/-! ### Reading moves on -/

namespace ByteReader

/-- A reader that has moved on gains behind it what it loses ahead. -/
structure MovesTo (r next : ByteReader) : Prop where
  le : r.pos ≤ next.pos
  total : next.pos + next.ahead.length = r.pos + r.ahead.length

theorem MovesTo.refl (r : ByteReader) : r.MovesTo r := ⟨Nat.le_refl _, rfl⟩

theorem MovesTo.trans {r mid next : ByteReader} (h : r.MovesTo mid) (h' : mid.MovesTo next) :
    r.MovesTo next := ⟨Nat.le_trans h.le h'.le, h'.total.trans h.total⟩

theorem movesTo_move (n : Nat) (r : ByteReader) : r.MovesTo (r.move n) :=
  ⟨Nat.le_add_right _ _, pos_move_add_length n r⟩

theorem movesTo_pass (stride : Stride) (r : ByteReader) : r.MovesTo (r.pass stride) := by
  cases stride with
  | byte => exact movesTo_move 1 r
  | whole => exact movesTo_move _ r

theorem length_pass_lt (stride : Stride) {r : ByteReader} (h : r.ahead ≠ []) :
    (r.pass stride).ahead.length < r.ahead.length := by
  have hpos := List.length_pos_iff.2 h
  have hwidth := charWidth_pos r.current
  cases stride with
  | byte =>
    simp only [pass, advance, move, List.length_drop]
    omega
  | whole =>
    simp only [pass, advanceChar, move, List.length_drop]
    omega

end ByteReader

namespace Pattern

theorem movesTo_readRepeatedly {unit : ByteReader → Option ByteReader}
    (h : ∀ {r next}, unit r = some next → r.MovesTo next) (r : ByteReader) :
    r.MovesTo (readRepeatedly unit r) := by
  fun_induction readRepeatedly unit r with
  | case1 r _ => exact .refl r
  | case2 r next hnext _ ih => exact (h hnext).trans ih
  | case3 r next _ _ => exact .refl r

theorem movesTo_of_read? {a : Pattern} {r next : ByteReader} (h : a.read? r = some next) :
    r.MovesTo next := by
  induction a generalizing r next with
  | empty =>
    obtain rfl : r = next := by simpa [read?] using h
    exact .refl r
  | one p stride =>
    obtain ⟨-, rfl⟩ : _ ∧ r.pass stride = next := by simpa [read?] using h
    exact ByteReader.movesTo_pass stride r
  | run p =>
    obtain rfl : r.eatWhile (onByte p) = next := by simpa [read?] using h
    exact ByteReader.movesTo_move _ r
  | run1 p =>
    obtain ⟨-, rfl⟩ : _ ∧ r.eatWhile (onByte p) = next := by simpa [read?] using h
    exact ByteReader.movesTo_move _ r
  | notBefore p =>
    obtain ⟨-, rfl⟩ : _ ∧ r = next := by simpa [read?] using h
    exact .refl r
  | seq a b iha ihb =>
    obtain ⟨mid, hmid, hnext⟩ := Option.bind_eq_some_iff.1 h
    exact (iha hmid).trans (ihb hnext)
  | orElse a b iha ihb =>
    rcases Option.or_eq_some_iff.1 h with h | ⟨-, h⟩
    · exact iha h
    · exact ihb h
  | many unit ih =>
    obtain rfl : readRepeatedly unit.read? r = next := by simpa [read?] using h
    exact movesTo_readRepeatedly ih r

/-- A pattern that is not nullable uses up bytes, whichever bytes these are. -/
theorem length_lt_of_read? {a : Pattern} (ha : a.nullable = false) {r next : ByteReader}
    (h : a.read? r = some next) : next.ahead.length < r.ahead.length := by
  induction a generalizing r next with
  | empty | run _ | notBefore _ | many _ => simp [nullable] at ha
  | one p stride =>
    obtain ⟨hhead, rfl⟩ : r.ahead.head?.any (onByte p) = true ∧ r.pass stride = next := by
      rwa [read?, Option.ite_none_right_eq_some, Option.some.injEq] at h
    apply ByteReader.length_pass_lt stride
    intro hnil
    simp [hnil] at hhead
  | run1 p =>
    have htotal := (movesTo_of_read? h).total
    obtain ⟨hlt, rfl⟩ : r.pos < _ ∧ r.eatWhile (onByte p) = next := by simpa [read?] using h
    omega
  | seq a b iha ihb =>
    obtain ⟨mid, hmid, hnext⟩ := Option.bind_eq_some_iff.1 h
    obtain ⟨hle, htotal⟩ := movesTo_of_read? hmid
    obtain ⟨hle', htotal'⟩ := movesTo_of_read? hnext
    rcases Bool.and_eq_false_iff.1 ha with ha | hb
    · have hlt := iha ha hmid
      omega
    · have hlt := ihb hb hnext
      omega
  | orElse a b iha ihb =>
    obtain ⟨ha, hb⟩ := Bool.or_eq_false_iff.1 ha
    rcases Option.or_eq_some_iff.1 h with h | ⟨-, h⟩
    · exact iha ha h
    · exact ihb hb h

theorem readRepeatedly_of_nullable_eq_false {unit : Pattern} (hunit : unit.nullable = false)
    (r : ByteReader) :
    readRepeatedly unit.read? r =
      match unit.read? r with
      | none => r
      | some next => readRepeatedly unit.read? next := by
  rw [readRepeatedly]
  cases hnext : unit.read? r with
  | none => rfl
  | some next => exact if_pos (length_lt_of_read? hunit hnext)

end Pattern

/-! ### Reading a text -/

/-- Where a reader stands after a match that starts at byte `pos`. -/
def Match.reader (pos : Nat) (m : Match) : ByteReader :=
  ⟨pos + Text.width m.text, Text.bytes m.rest⟩

theorem Match.reader_append (pos : Nat) (m n : Match) :
    (m.append n).reader pos = n.reader (pos + Text.width m.text) := by
  simp [reader, append, Nat.add_assoc]

theorem ByteReader.pass_bytes {stride : Stride} {c : Char} (pos : Nat) (cs : List Char)
    (hstride : stride = .byte → c.toNat < 128) :
    pass ⟨pos, Text.bytes (c :: cs)⟩ stride = ⟨pos + c.utf8Size, Text.bytes cs⟩ := by
  cases stride with
  | byte => exact advance_bytes pos (hstride rfl) cs
  | whole => exact advanceChar_bytes pos c cs

namespace Pattern

theorem readRepeatedly_bytes {unit : Pattern} (hunit : unit.nullable = false)
    (h : ∀ pos cs, unit.read? ⟨pos, Text.bytes cs⟩ = (unit.match? cs).map (Match.reader pos))
    (pos : Nat) (cs : List Char) :
    readRepeatedly unit.read? ⟨pos, Text.bytes cs⟩ =
      (repeated unit.match? cs).reader pos := by
  induction hn : cs.length using Nat.strong_induction_on generalizing pos cs with
  | _ n ih =>
    rw [readRepeatedly_of_nullable_eq_false hunit, repeated_of_nullable_eq_false hunit, h]
    cases hm : unit.match? cs with
    | none => simp [Match.reader]
    | some m =>
      have hlt := unit.length_rest_lt hm (text_ne_nil_of_match? hunit hm)
      rw [Option.map_some, Match.reader_append]
      exact ih m.rest.length (by omega) _ m.rest rfl

/-- On the bytes of a text, reading a pattern is matching it. -/
theorem read?_bytes {a : Pattern} (ha : a.Bytewise) (pos : Nat) (cs : List Char) :
    a.read? ⟨pos, Text.bytes cs⟩ = (a.match? cs).map (Match.reader pos) := by
  induction a generalizing pos cs with
  | empty => simp [read?, match?, Match.reader]
  | one p stride =>
    obtain ⟨hp, hascii⟩ := bytewise_one.1 ha
    rw [read?, Text.any_onByte_head? hp]
    cases cs with
    | nil => rfl
    | cons c cs =>
      cases hc : p c with
      | true => simp [hc, ByteReader.pass_bytes pos cs fun h => hascii h c hc, Match.reader]
      | false => simp [hc]
  | run p =>
    rw [read?, ByteReader.eatWhile_bytes ha]
    rfl
  | run1 p =>
    rw [read?, ByteReader.eatWhile_bytes ha]
    cases cs with
    | nil => simp
    | cons c cs =>
      have hpos := c.utf8Size_pos
      cases hc : p c with
      | true => simp [hc, Match.reader, Nat.ne_of_gt hpos]
      | false => simp [hc]
  | notBefore p =>
    rw [read?, Text.any_onByte_head? ha, match?_notBefore]
    split <;> simp [Match.reader]
  | seq a b iha ihb =>
    rw [read?, iha ha.1]
    change _ = ((a ++ b).match? cs).map _
    rw [match?_append]
    cases a.match? cs with
    | none => rfl
    | some m =>
      simp only [Option.map_some, Option.bind_some, Match.reader, ihb ha.2, Option.map_map]
      congr 1
      funext n
      exact (Match.reader_append pos m n).symm
  | orElse a b iha ihb =>
    rw [read?, iha ha.1, ihb ha.2, match?]
    cases a.match? cs <;> rfl
  | many unit ih =>
    rw [read?, readRepeatedly_bytes ha.2 (ih ha.1)]
    rfl

end Pattern

/-! ### Steps -/

/-- Reads the pattern of a rule, unless the reader stays where it is. -/
def Rule.read? (rule : Rule) (r : ByteReader) : Option ByteReader :=
  (rule.pattern.read? r).filter fun next => r.pos < next.pos

def Rule.firstRead? (rules : List Rule) (r : ByteReader) : Option (Rule × ByteReader) :=
  rules.findSome? fun rule => (rule.read? r).map fun next => (rule, next)

/-- A step on bytes: the rule that was read, if any, and the reader after it. -/
def readStep (modes : ModeStack) (r : ByteReader) : Option Rule × ByteReader :=
  match Rule.firstRead? modes.top.rules r with
  | some (rule, next) => (some rule, next)
  | none => (none, r.advanceChar)

theorem Rule.read?_bytes {rule : Rule} (h : rule.pattern.Bytewise) (pos : Nat)
    (cs : List Char) :
    rule.read? ⟨pos, Text.bytes cs⟩ = (rule.match? cs).map (Match.reader pos) := by
  rw [read?, Pattern.read?_bytes h, match?]
  cases rule.pattern.match? cs with
  | none => rfl
  | some m =>
    by_cases ht : m.text = []
    · simp [Option.filter, Match.reader, ht]
    · have hpos := Text.width_pos ht
      simp [Option.filter, Match.reader, ht, hpos]

theorem Rule.firstRead?_bytes {rules : List Rule}
    (h : ∀ rule ∈ rules, rule.pattern.Bytewise) (pos : Nat) (cs : List Char) :
    firstRead? rules ⟨pos, Text.bytes cs⟩ =
      (first? rules cs).map fun found => (found.1, found.2.reader pos) := by
  induction rules with
  | nil => rfl
  | cons rule rules ih =>
    obtain ⟨hrule, hrules⟩ := List.forall_mem_cons.1 h
    rw [firstRead?, List.findSome?_cons, read?_bytes hrule, first?, List.findSome?_cons]
    cases rule.match? cs with
    | none => exact ih hrules
    | some m => rfl

/-- A step on the bytes of a text is a step on the text. -/
theorem readStep_bytes (start : Nat) (modes : ModeStack) (c : Char) (cs : List Char) :
    readStep modes ⟨start, Text.bytes (c :: cs)⟩ =
      ((step start modes c cs).rule?,
        ⟨(step start modes c cs).stop, Text.bytes (step start modes c cs).rest⟩) := by
  rw [readStep, Rule.firstRead?_bytes (Pattern.bytewise_rules modes.top), step]
  cases Rule.first? modes.top.rules (c :: cs) with
  | none =>
    rw [Option.map_none]
    change (none, ByteReader.advanceChar _) = _
    rw [ByteReader.advanceChar_bytes]
    simp [Step.stop]
  | some found => rfl

theorem length_readStep_lt (modes : ModeStack) {r : ByteReader} (h : r.ahead ≠ []) :
    (readStep modes r).2.ahead.length < r.ahead.length := by
  have hpos := List.length_pos_iff.2 h
  unfold readStep
  split
  · rename_i rule next hfirst
    obtain ⟨rule', -, hread⟩ := List.exists_of_findSome?_eq_some hfirst
    obtain ⟨next', hnext, heq⟩ := Option.map_eq_some_iff.1 hread
    obtain ⟨-, rfl⟩ : rule' = rule ∧ next' = next := by simpa using heq
    obtain ⟨hread, hlt⟩ := Option.filter_eq_some_iff.1 hnext
    have htotal := (Pattern.movesTo_of_read? hread).total
    simp only [decide_eq_true_eq] at hlt
    change next'.ahead.length < r.ahead.length
    omega
  · exact ByteReader.length_pass_lt .whole h

/-! ### The spans of the tokens -/

def Action.spans (span : Span) : Action → List Span
  | emit _ | classify _ => [span]
  | enclosed _ _ =>
    if span.stop - span.start < 3 then
      [span]
    else
      [⟨span.start, span.start + 1⟩, ⟨span.start + 1, span.stop - 1⟩, ⟨span.stop - 1, span.stop⟩]

def stepSpans (span : Span) : Option Rule → List Span
  | some rule => rule.action.spans span
  | none => [span]

def modesAfter (modes : ModeStack) : Option Rule → ModeStack
  | some rule => rule.transition.apply modes
  | none => modes

def readSpans (modes : ModeStack) (r : ByteReader) : List Span :=
  if _h : r.ahead = [] then
    []
  else
    let taken := readStep modes r
    stepSpans ⟨r.pos, taken.2.pos⟩ taken.1 ++ readSpans (modesAfter modes taken.1) taken.2
termination_by r.ahead.length
decreasing_by exact length_readStep_lt modes _h

theorem Action.map_span_layout_of_isSingle {action : Action} (h : action.isSingle = true)
    (start : Nat) (text : List Char) :
    (Lexeme.layout start ((action.lexemes text).1 :: (action.lexemes text).2)).map Token.span =
      action.spans ⟨start, start + Text.width text⟩ := by
  cases action with
  | emit category => rfl
  | classify shape => rfl
  | enclosed mark body => simp [isSingle] at h

theorem Action.map_span_layout_enclosed (mark category : Category) (start : Nat)
    {body : List Char} (hbody : body ≠ []) :
    (Lexeme.layout start (((enclosed mark category).lexemes ('\'' :: (body ++ ['\'']))).1 ::
      ((enclosed mark category).lexemes ('\'' :: (body ++ ['\'']))).2)).map Token.span =
      (enclosed mark category).spans
        ⟨start, start + Text.width ('\'' :: (body ++ ['\'']))⟩ := by
  have hwidth := Text.width_pos hbody
  have hquote : '\''.utf8Size = 1 := rfl
  rw [lexemes_enclosed mark category hbody, spans, if_neg (by simp [hquote]; omega)]
  simp only [Lexeme.layout, Lexeme.place, List.map_cons, List.map_nil, Token.span, Token.stop,
    Text.width_cons, Text.width_append, Text.width_nil, hquote, List.cons.injEq, Span.mk.injEq,
    true_and, and_true]
  omega

/-- Also where a match is divided, the bytes of its tokens can be told from its span. -/
theorem map_span_tokens (start : Nat) (modes : ModeStack) (c : Char) (cs : List Char) :
    (step start modes c cs).tokens.map Token.span =
      stepSpans (step start modes c cs).span (step start modes c cs).rule? := by
  rcases step_cases start modes c cs with ⟨rule, m, hmem, hmatch, hstep⟩ | hstep
  · rw [hstep]
    rcases isSingle_or_charEscape _ rule hmem with hsingle | rfl
    · exact Action.map_span_layout_of_isSingle hsingle start m.text
    · obtain ⟨body, hbody, htext, -⟩ :=
        Pattern.exists_of_match?_charEscapeLiteral (Rule.match?_eq_some_iff.1 hmatch).1
      have hspans := Action.map_span_layout_enclosed .char .stringEscape start hbody
      rw [← htext] at hspans
      exact hspans
  · rw [hstep]
    rfl

/-- On the bytes of a text, the spans are those of the tokens of the text. -/
theorem readSpans_bytes (start : Nat) (modes : ModeStack) (cs : List Char) :
    readSpans modes ⟨start, Text.bytes cs⟩ =
      ((steps start modes cs).flatMap Step.tokens).map Token.span := by
  fun_induction steps start modes cs with
  | case1 start modes =>
    rw [readSpans]
    rfl
  | case2 start modes c cs s ih =>
    obtain ⟨b, bs, hbytes, -, -⟩ := Text.exists_bytes_cons c cs
    have hne : Text.bytes (c :: cs) ≠ [] := by simp [hbytes]
    have hspans : s.tokens.map Token.span = stepSpans ⟨start, s.stop⟩ s.rule? := by
      have h := map_span_tokens start modes c cs
      rw [Step.span, step_start] at h
      exact h
    have hafter : modesAfter modes s.rule? = s.after := by
      rw [Step.after, step_modes]
      rfl
    rw [readSpans, dif_neg hne, readStep_bytes]
    change stepSpans ⟨start, s.stop⟩ s.rule? ++
      readSpans (modesAfter modes s.rule?) ⟨s.stop, Text.bytes s.rest⟩ = _
    rw [hafter, ih, ← hspans, List.flatMap_cons, List.map_append]

end Tokenizer
