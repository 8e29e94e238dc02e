import Tokenizer.Proofs.Filler
import Tokenizer.Proofs.Run

/-!
The text of a string on one line. Inside a string such text is read up to its end, whatever its
escapes are worth, and the string stays open.
-/
namespace Tokenizer

open CharClass

/-- The character stands for itself in a string on one line. -/
def isStringPlain (c : Char) : Bool := c != '\\' && c != '"' && !isLineBreak c

/-- Characters that stand for themselves, and backslashes that each take the next character. -/
inductive StringBody : List Char → Prop
  | nil : StringBody []
  | plain {c : Char} {cs : List Char} :
      isStringPlain c = true → StringBody cs → StringBody (c :: cs)
  | escaped {c : Char} {cs : List Char} :
      isLineBreak c = false → StringBody cs → StringBody ('\\' :: c :: cs)

namespace StringBody

theorem isLineBreak_eq_false {body : List Char} (h : StringBody body) :
    ∀ c ∈ body, isLineBreak c = false := by
  induction h with
  | nil => simp
  | plain hc _ ih =>
    have hbreak := (Bool.and_eq_true_iff.1 hc).2
    exact List.forall_mem_cons.2 ⟨by simpa using hbreak, ih⟩
  | escaped hc _ ih => exact List.forall_mem_cons.2 ⟨rfl, List.forall_mem_cons.2 ⟨hc, ih⟩⟩

theorem append {xs ys : List Char} (hxs : StringBody xs) (hys : StringBody ys) :
    StringBody (xs ++ ys) := by
  induction hxs with
  | nil => exact hys
  | plain hc _ ih => exact ih.plain hc
  | escaped hc _ ih => exact ih.escaped hc

theorem tail_of_plain {c : Char} {cs : List Char} (hc : isStringPlain c = true)
    (h : StringBody (c :: cs)) : StringBody cs := by
  cases h with
  | plain _ h => exact h
  | escaped _ _ => simp [isStringPlain] at hc

/-- What follows characters that stand for themselves is again the text of a string. -/
theorem of_plain_append {xs ys : List Char} (hxs : ∀ x ∈ xs, isStringPlain x = true)
    (h : StringBody (xs ++ ys)) : StringBody ys := by
  induction xs with
  | nil => exact h
  | cons x xs ih =>
    obtain ⟨hx, hxs⟩ := List.forall_mem_cons.1 hxs
    exact ih hxs (tail_of_plain hx h)

theorem dropWhile {body : List Char} (h : StringBody body) {p : Char → Bool}
    (hp : ∀ x ∈ body, p x = true → isStringPlain x = true) : StringBody (body.dropWhile p) := by
  have hsplit := h
  rw [← List.takeWhile_append_dropWhile (p := p) (l := body)] at hsplit
  refine of_plain_append ?_ hsplit
  intro x hx
  exact hp x ((List.takeWhile_sublist p).mem hx) (List.mem_takeWhile_imp hx)

theorem dropWhile_isFiller {body : List Char} (h : StringBody body) :
    StringBody (body.dropWhile (Mode.inside .string).isFiller) := by
  apply h.dropWhile
  intro x hx hfiller
  have hbreak := h.isLineBreak_eq_false x hx
  simp only [Mode.isFiller] at hfiller
  simp [isStringPlain, hfiller, hbreak]

end StringBody

theorem isStringPlain_of_isHexDigit {c : Char} (h : isHexDigit c = true) :
    isStringPlain c = true := by
  have hne : ∀ d : Char, isHexDigit d = false → c ≠ d := by
    rintro d hd rfl
    simp [hd] at h
  simp [isStringPlain, isLineBreak, hne '\\' rfl, hne '"' rfl, hne '\n' rfl, hne '\r' rfl]

/-- What follows the backslash of an escape sequence: a character, then hexadecimal digits. -/
theorem text_of_match?_escapeBody {cs : List Char} {m : Match}
    (h : Pattern.escapeBody.match? cs = some m) :
    ∃ c ds, m.text = c :: ds ∧ ∀ d ∈ ds, isHexDigit d = true := by
  have hcoded : ∀ {d : Char} {a : Pattern} {n : Match}, (Pattern.char d ++ a).match? cs = some n →
      a.ReadsOnly (fun c => isHexDigit c = true) →
      ∃ c ds, n.text = c :: ds ∧ ∀ d ∈ ds, isHexDigit d = true := by
    intro d a n hn ha
    obtain ⟨x, hx, y, hy, rfl⟩ := Pattern.match?_append_eq_some.1 hn
    obtain ⟨rest, rfl, rfl⟩ := Pattern.match?_char_eq_some.1 hx
    exact ⟨d, y.text, rfl, Pattern.forall_mem_of_match? ha hy⟩
  rcases Option.or_eq_some_iff.1 h with h | ⟨_, h⟩
  · rcases Option.or_eq_some_iff.1 h with h | ⟨_, h⟩
    · rcases Option.or_eq_some_iff.1 h with h | ⟨_, h⟩
      · obtain ⟨c, rest, rfl, _, rfl⟩ := Pattern.match?_one_eq_some.1 h
        exact ⟨c, [], rfl, by simp⟩
      · obtain ⟨x, hx, y, hy, rfl⟩ := Pattern.match?_append_eq_some.1 h
        obtain ⟨c, ds, hc, hds⟩ := hcoded hx fun _ hd => hd
        have hys := Pattern.forall_mem_of_match? (Pattern.readsOnly_upTo isHexDigit 3) hy
        refine ⟨c, ds ++ y.text, by simp [Match.append, hc], ?_⟩
        exact List.forall_mem_append.2 ⟨hds, hys⟩
    · exact hcoded h (Pattern.readsOnly_exactly isHexDigit 4)
  · exact hcoded h (Pattern.readsOnly_exactly isHexDigit 8)

theorem text_of_match?_escape {cs : List Char} {m : Match} (h : Pattern.escape.match? cs = some m) :
    ∃ c ds, m.text = '\\' :: c :: ds ∧ ∀ d ∈ ds, isHexDigit d = true := by
  obtain ⟨x, hx, y, hy, rfl⟩ := Pattern.match?_append_eq_some.1 h
  obtain ⟨rest, rfl, rfl⟩ := Pattern.match?_char_eq_some.1 hx
  obtain ⟨c, ds, hc, hds⟩ := text_of_match?_escapeBody hy
  exact ⟨c, ds, by simp [Match.append, hc], hds⟩

/-- Characters of a class lie before one that is outside of it. -/
theorem append_eq_of_stop {p : Char → Bool} {ds left cs zs : List Char} {z : Char}
    (hds : ∀ d ∈ ds, p d = true) (hz : p z = false) (h : ds ++ left = cs ++ z :: zs) :
    ∃ mid, cs = ds ++ mid ∧ left = mid ++ z :: zs := by
  rcases List.append_eq_append_iff.1 h with ⟨mid, hcs, hleft⟩ | ⟨mid, hcs, hleft⟩
  · exact ⟨mid, hcs, hleft⟩
  · cases mid with
    | nil => exact ⟨[], by simpa using hcs.symm, by simpa using hleft.symm⟩
    | cons y mid =>
      obtain ⟨rfl, -⟩ := List.cons.inj hleft
      have hy := hds z (by simp [hcs])
      simp [hz] at hy

structure Step.ReadsString (modes : ModeStack) (s : Step) : Prop where
  modes_eq : s.modes = modes
  after_eq : s.after = modes
  category : ∀ t ∈ s.tokens,
    t.category ∈ [Category.string, .stringEscape, .stringEscapeInvalid]

theorem Step.readsString_of_emit {modes : ModeStack} {s : Step} {rule : Rule}
    {category : Category} (hmodes : s.modes = modes) (hrule : s.rule? = some rule)
    (haction : rule.action = .emit category) (hstay : rule.transition = .stay)
    (hcategory : category ∈ [Category.string, .stringEscape, .stringEscapeInvalid]) :
    s.ReadsString modes where
  modes_eq := hmodes
  after_eq := by simp [after, hrule, hstay, hmodes, Transition.apply]
  category := by
    intro t ht
    rw [tokens_of_emit hrule haction, List.mem_singleton] at ht
    rw [ht]
    exact hcategory

section
variable {modes : ModeStack} (htop : modes.top = .inside .string)
include htop

theorem step_string_close (start : Nat) (cs : List Char) :
    step start modes '"' cs =
      ⟨start, modes, some ⟨"string.close", .doubleQuote, .emit .string, .pop⟩, ['"'], cs⟩ := by
  rw [step, htop, ← Rule.first?_filter_canStart]
  rfl

/-- A backslash at the end of the source, or of a line, is read alone. -/
theorem step_string_dangling (start : Nat) {cs : List Char}
    (h : ∀ c ∈ cs.head?, isLineBreak c = true) :
    step start modes '\\' cs = ⟨start, modes, none, ['\\'], cs⟩ := by
  have hnil : step start modes '\\' [] = ⟨start, modes, none, ['\\'], []⟩ := by
    rw [step, htop]
    rfl
  cases cs with
  | nil => exact hnil
  | cons b cs =>
    have hb : isLineBreak b = true := h b rfl
    have hnot : ¬∀ x ∈ ['\\'], modes.top.isFiller x = true := by
      simp [htop, Mode.isFiller]
    have hstep := step_append_of_isLineBreak start modes hb hnot cs
    rw [List.nil_append, hnil] at hstep
    exact hstep

theorem first?_string_backslash (cs : List Char) :
    Rule.first? modes.top.rules ('\\' :: cs) =
      Rule.first? [⟨"string.escape", .escape, .emit .stringEscape, .stay⟩,
        ⟨"string.escape.invalid", .anyEscape, .emit .stringEscapeInvalid, .stay⟩]
        ('\\' :: cs) := by
  rw [htop, ← Rule.first?_filter_canStart]
  rfl

theorem step_string_escape (start : Nat) {cs : List Char} {m : Match}
    (h : Pattern.escape.match? ('\\' :: cs) = some m) :
    step start modes '\\' cs =
      ⟨start, modes, some ⟨"string.escape", .escape, .emit .stringEscape, .stay⟩, m.text,
        m.rest⟩ := by
  obtain ⟨c, ds, htext, -⟩ := text_of_match?_escape h
  have hrule : Rule.match? ⟨"string.escape", .escape, .emit .stringEscape, .stay⟩ ('\\' :: cs) =
      some m :=
    Rule.match?_eq_some_iff.2 ⟨h, by simp [htext]⟩
  exact step_of_first? ((first?_string_backslash htop cs).trans
    (Rule.first?_cons_of_match? hrule _)) start

theorem step_string_escape_invalid (start : Nat) {d : Char} {cs : List Char}
    (hd : isLineBreak d = false) (h : Pattern.escape.match? ('\\' :: d :: cs) = none) :
    step start modes '\\' (d :: cs) =
      ⟨start, modes, some ⟨"string.escape.invalid", .anyEscape, .emit .stringEscapeInvalid, .stay⟩,
        ['\\', d], cs⟩ := by
  have hnone : Rule.match? ⟨"string.escape", .escape, .emit .stringEscape, .stay⟩
      ('\\' :: d :: cs) = none := by
    simp [Rule.match?, h]
  have hany : Rule.match? ⟨"string.escape.invalid", .anyEscape, .emit .stringEscapeInvalid,
      .stay⟩ ('\\' :: d :: cs) = some ⟨['\\', d], cs⟩ := by
    rw [Rule.match?_eq_some_iff]
    simp [Pattern.anyEscape, Pattern.backslash, hd, Match.append]
  exact step_of_first? ((first?_string_backslash htop (d :: cs)).trans
    ((Rule.first?_cons_of_eq_none hnone _).trans (Rule.first?_cons_of_match? hany _))) start

/-- An escape sequence takes hexadecimal digits at most, and an unknown one just its character. -/
theorem step_string_escaped (start : Nat) {d z : Char} {cs : List Char}
    (hd : isLineBreak d = false) (hbody : StringBody cs) (hz : isHexDigit z = false)
    (zs : List Char) :
    ∃ left, StringBody left ∧
      (step start modes '\\' (d :: cs ++ z :: zs)).text ++ left = '\\' :: d :: cs ∧
      (step start modes '\\' (d :: cs ++ z :: zs)).rest = left ++ z :: zs ∧
      (step start modes '\\' (d :: cs ++ z :: zs)).ReadsString modes := by
  rw [List.cons_append]
  cases hm : Pattern.escape.match? ('\\' :: d :: (cs ++ z :: zs)) with
  | some m =>
    obtain ⟨e, ds, htext, hds⟩ := text_of_match?_escape hm
    have hsplit := Pattern.match?_split _ hm
    rw [htext] at hsplit
    obtain ⟨rfl, hmid⟩ : e = d ∧ ds ++ m.rest = cs ++ z :: zs := by simpa using hsplit
    obtain ⟨left, rfl, hrest⟩ := append_eq_of_stop hds hz hmid
    rw [step_string_escape htop start hm]
    refine ⟨left, ?_, ?_, hrest, Step.readsString_of_emit rfl rfl rfl rfl (by decide)⟩
    · exact hbody.of_plain_append fun x hx => isStringPlain_of_isHexDigit (hds x hx)
    · simp [htext]
  | none =>
    rw [step_string_escape_invalid htop start hd hm]
    exact ⟨cs, hbody, rfl, rfl, Step.readsString_of_emit rfl rfl rfl rfl (by decide)⟩

/-- At text of a string, a step reads a part of the text and leaves a text of the same kind. -/
theorem step_string_body (start : Nat) {c z : Char} {cs : List Char}
    (hbody : StringBody (c :: cs)) (hz : z = '"' ∨ z = '\\') (zs : List Char) :
    ∃ left, StringBody left ∧ (step start modes c (cs ++ z :: zs)).text ++ left = c :: cs ∧
      (step start modes c (cs ++ z :: zs)).rest = left ++ z :: zs ∧
      (step start modes c (cs ++ z :: zs)).ReadsString modes := by
  by_cases hc : modes.top.isFiller c = true
  · -- filler up to the next backslash, or to the end of the body
    have hzfiller : modes.top.isFiller z = false := by
      rw [htop]
      rcases hz with rfl | rfl <;> rfl
    have hstep := step_of_isFiller start modes hc (cs ++ z :: zs)
    rw [← List.cons_append, Pattern.takeWhile_append_of_stop hzfiller,
      Pattern.dropWhile_append_of_stop hzfiller] at hstep
    refine ⟨(c :: cs).dropWhile modes.top.isFiller, ?_, ?_, ?_, ?_⟩
    · rw [htop]
      exact hbody.dropWhile_isFiller
    · rw [hstep]
      exact List.takeWhile_append_dropWhile
    · rw [hstep]
    · rw [hstep]
      refine Step.readsString_of_emit rfl rfl rfl rfl ?_
      rw [htop]
      decide
  · cases hbody with
    | plain hplain _ => simp_all [isStringPlain, Mode.isFiller]
    | escaped hd hbody =>
      have hhex : isHexDigit z = false := by
        rcases hz with rfl | rfl <;> rfl
      exact step_string_escaped htop start hd hbody hhex zs

/-- Inside a string, text of a string is read to its end, and the string stays open. -/
theorem steps_string_body (start : Nat) {z : Char} {body : List Char} (hbody : StringBody body)
    (hz : z = '"' ∨ z = '\\') (zs : List Char) :
    ∃ inner, steps start modes (body ++ z :: zs) =
        inner ++ steps (start + Text.width body) modes (z :: zs) ∧
      ∀ s ∈ inner, s.ReadsString modes := by
  induction hn : body.length using Nat.strong_induction_on generalizing start body with
  | _ n ih =>
    cases body with
    | nil => exact ⟨[], rfl, by simp⟩
    | cons c cs =>
      obtain ⟨left, hleft, htext, hrest, hreads⟩ := step_string_body htop start hbody hz zs
      have hlen := congrArg List.length htext
      have hpos := List.length_pos_iff.2 (step_text_ne_nil start modes c (cs ++ z :: zs))
      rw [List.length_append] at hlen
      obtain ⟨inner, hsteps, hinner⟩ := ih left.length (by omega)
        (step start modes c (cs ++ z :: zs)).stop hleft rfl
      refine ⟨step start modes c (cs ++ z :: zs) :: inner, ?_, ?_⟩
      · rw [List.cons_append, steps_cons, hrest, hreads.after_eq, hsteps, Step.stop, step_start,
          ← htext, Text.width_append, Nat.add_assoc]
        rfl
      · exact List.forall_mem_cons.2 ⟨hreads, hinner⟩

end

/-! ### Text of a string seen from its opening quote -/

/-- What the opening quote of a string looks for again and again. -/
def Pattern.stringUnit : Pattern := stringLineText.orElse anyEscape

theorem Pattern.match?_stringUnit_plain {c : Char} {cs tail : List Char}
    (hc : isStringPlain c = true) (htail : ∀ z ∈ tail.head?, isStringPlain z = false) :
    stringUnit.match? (c :: cs ++ tail) =
      some ⟨(c :: cs).takeWhile isStringPlain, (c :: cs).dropWhile isStringPlain ++ tail⟩ := by
  have hrun : stringLineText.match? (c :: cs ++ tail) =
      some ⟨(c :: cs).takeWhile isStringPlain, (c :: cs).dropWhile isStringPlain ++ tail⟩ := by
    change (run1 isStringPlain).match? (c :: cs ++ tail) = _
    rw [List.cons_append, match?_run1_cons, if_pos hc, ← List.cons_append]
    cases tail with
    | nil => simp
    | cons z zs =>
      rw [takeWhile_append_of_stop (htail z rfl), dropWhile_append_of_stop (htail z rfl)]
  rw [stringUnit, match?, hrun]
  rfl

theorem Pattern.match?_stringUnit_escaped {d : Char} (hd : isLineBreak d = false)
    (cs : List Char) : stringUnit.match? ('\\' :: d :: cs) = some ⟨['\\', d], cs⟩ := by
  have hline : stringLineText.match? ('\\' :: d :: cs) = none := by simp [stringLineText]
  rw [stringUnit, match?, hline]
  simp [anyEscape, backslash, hd, Match.append]

theorem Pattern.match?_stringUnit_of_isLineBreak {tail : List Char}
    (htail : ∀ c ∈ tail.head?, isLineBreak c = true) : stringUnit.match? tail = none := by
  cases tail with
  | nil => rfl
  | cons b tail =>
    have hb : isLineBreak b = true := htail b rfl
    have hne : b ≠ '\\' := by
      rintro rfl
      simp [isLineBreak] at hb
    simp [stringUnit, match?, stringLineText, anyEscape, backslash, hb, hne]

theorem Pattern.match?_stringUnit_dangling {tail : List Char}
    (htail : ∀ c ∈ tail.head?, isLineBreak c = true) :
    stringUnit.match? ('\\' :: tail) = none := by
  cases tail with
  | nil => rfl
  | cons b tail =>
    have hb : isLineBreak b = true := htail b rfl
    simp [stringUnit, match?, stringLineText, anyEscape, backslash, hb]

/-- Seen from the opening quote, text of a string goes on up to its end. -/
theorem Pattern.match?_many_stringUnit {body tail : List Char} (hbody : StringBody body)
    (htail : ∀ z ∈ tail.head?, isStringPlain z = false) (hstop : stringUnit.match? tail = none) :
    (many stringUnit).match? (body ++ tail) = some ⟨body, tail⟩ := by
  induction hn : body.length using Nat.strong_induction_on generalizing body with
  | _ n ih =>
    rw [match?_many]
    cases hbody with
    | nil => simp [hstop]
    | @plain c cs hc hbody =>
      have hdrop : StringBody ((c :: cs).dropWhile isStringPlain) :=
        (hbody.plain hc).dropWhile fun _ _ hx => hx
      have hlen : ((c :: cs).dropWhile isStringPlain).length < n := by
        have hle := (List.dropWhile_sublist (l := cs) isStringPlain).length_le
        rw [List.dropWhile_cons_of_pos hc]
        simp only [List.length_cons] at hn
        omega
      have hrest := ih _ hlen hdrop rfl
      have hne : (c :: cs).takeWhile isStringPlain ≠ [] := by simp [hc]
      rw [match?_stringUnit_plain hc htail]
      simp only [if_neg hne, hrest, Option.map_some, Match.append,
        List.takeWhile_append_dropWhile]
    | @escaped d cs hd hbody =>
      rw [List.cons_append, List.cons_append, match?_stringUnit_escaped hd]
      have hrest := ih cs.length (by simp at hn; omega) hbody rfl
      simp [hrest, Match.append]

end Tokenizer
