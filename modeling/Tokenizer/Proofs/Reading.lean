import Tokenizer.Proofs.Layout
import Tokenizer.Proofs.Lookahead
import Tokenizer.Proofs.Word

/-!
What tokens read. The text of every token is a word of its category and ends where the word has to
end. Much of this rests on the order of the rules: a run of symbols opens no comment and is no lone
angle bracket, since those come first.
-/
namespace Tokenizer

open CharClass Grammar

/-! ### Words by the rules -/

/-- The category of a matched text that makes one lexeme. -/
def Action.category (text : List Char) : Action → Category
  | emit category => category
  | classify shape => shape.classify text
  | enclosed mark _ => mark

/-- The match is a word of the category that the rule gives it. -/
def Rule.Reads (rule : Rule) (m : Match) : Prop :=
  (rule.action.category m.text).Reads m.text m.rest

namespace Rule

theorem misses_iff {rule : Rule} {cs : List Char} :
    rule.match? cs = none ↔ rule.pattern.Misses cs := by
  rw [Option.eq_none_iff_forall_ne_some]
  constructor
  · intro h m hm
    by_contra hne
    exact h m (match?_eq_some_iff.2 ⟨hm, hne⟩)
  · intro h m hm
    obtain ⟨hm, hne⟩ := match?_eq_some_iff.1 hm
    exact hne (h m hm)

/-- The rule that is found is the first, or the first finds nothing. -/
theorem first?_cons_cases {rule found : Rule} {rules : List Rule} {cs : List Char} {m : Match}
    (h : first? (rule :: rules) cs = some (found, m)) :
    rule.pattern.match? cs = some m ∧ rule = found ∨
      rule.pattern.Misses cs ∧ first? rules cs = some (found, m) := by
  cases hm : rule.match? cs with
  | none =>
    rw [first?_cons_of_eq_none hm] at h
    exact .inr ⟨misses_iff.1 hm, h⟩
  | some n =>
    rw [first?_cons_of_match? hm] at h
    obtain ⟨rfl, rfl⟩ : rule = found ∧ n = m := by simpa using h
    exact .inl ⟨(match?_eq_some_iff.1 hm).1, rfl⟩

/-- The rule that is found is one of `xs`, or all of `xs` find nothing. -/
theorem first?_append_cases {xs ys : List Rule} {cs : List Char} {found : Rule} {m : Match}
    (h : first? (xs ++ ys) cs = some (found, m)) :
    first? xs cs = some (found, m) ∨
      (∀ rule ∈ xs, rule.pattern.Misses cs) ∧ first? ys cs = some (found, m) := by
  rw [first?, List.findSome?_append, Option.or_eq_some_iff, List.findSome?_eq_none_iff] at h
  rcases h with h | ⟨hnone, h⟩
  · exact .inl h
  · exact .inr ⟨fun rule hmem => misses_iff.1 (Option.map_eq_none_iff.1 (hnone rule hmem)), h⟩

end Rule

/-- Where two characters are looked for and the first is found, the second does not follow. -/
theorem Pattern.Misses.stops {a b : Char} {rest : List Char}
    (h : (literal [a, b]).Misses (a :: rest)) : Stops (· == b) rest := by
  intro c hc
  rw [beq_eq_false_iff_ne]
  rintro rfl
  obtain ⟨tail, rfl⟩ := List.head?_eq_some_iff.1 hc
  have hmatch : (literal [a, c]).match? (a :: c :: tail) = some ⟨[a, c], tail⟩ :=
    match?_literal_eq_some.2 ⟨tail, rfl, rfl⟩
  have hnil := h _ hmatch
  simp at hnil

section
variable {cs : List Char} {rule : Rule} {m : Match}

theorem reads_whitespaceRules (h : Rule.first? whitespaceRules cs = some (rule, m)) :
    rule.Reads m := by
  rcases Rule.first?_cons_cases h with ⟨hm, rfl⟩ | ⟨-, h⟩
  · exact ⟨Pattern.mem_language_of_match? hm, Pattern.stops_run1 hm⟩
  rcases Rule.first?_cons_cases h with ⟨hm, rfl⟩ | ⟨hdoc, h⟩
  · exact reads_docCommentOpen hm
  rcases Rule.first?_cons_cases h with ⟨hm, rfl⟩ | ⟨-, h⟩
  · exact reads_blockCommentOpen hm hdoc
  rcases Rule.first?_cons_cases h with ⟨hm, rfl⟩ | ⟨-, h⟩
  · exact reads_lineComment hm
  simp [Rule.first?] at h

theorem reads_symbolRules
    (h : Rule.first? [⟨"bracket", .bracket, .classify .bracket, .stay⟩,
      ⟨"angle", .loneAngle, .classify .bracket, .stay⟩,
      ⟨"symbols", .symbolRun, .classify .symbolRun, .stay⟩,
      ⟨"annotation", .annotationName, .emit .annotationName, .stay⟩] cs = some (rule, m))
    (hopen : Pattern.blockCommentOpen.Misses cs) (hline : Pattern.lineComment.Misses cs) :
    rule.Reads m := by
  rcases Rule.first?_cons_cases h with ⟨hm, rfl⟩ | ⟨-, h⟩
  · obtain ⟨c, rest, -, hc, rfl⟩ := Pattern.match?_oneOf_eq_some.1 hm
    exact Shape.reads_bracket hc rest
  rcases Rule.first?_cons_cases h with ⟨hm, rfl⟩ | ⟨hangle, h⟩
  · exact reads_loneAngle hm
  rcases Rule.first?_cons_cases h with ⟨hm, rfl⟩ | ⟨-, h⟩
  · exact reads_symbolRun hm hopen hline hangle
  rcases Rule.first?_cons_cases h with ⟨hm, rfl⟩ | ⟨-, h⟩
  · exact ⟨Pattern.mem_language_of_match? hm,
      Pattern.stops_append (Pattern.stops_append Pattern.stops_run) hm⟩
  simp [Rule.first?] at h

theorem reads_numberRules (hmem : rule ∈ numberRules) (h : rule.pattern.match? cs = some m) :
    rule.Reads m := by
  have hword := Pattern.mem_language_of_match? h
  simp only [numberRules, List.mem_cons, List.not_mem_nil, or_false] at hmem
  rcases hmem with rfl | rfl | rfl | rfl | rfl | rfl | rfl
  · exact .inl (.inl hword)
  · exact .inl (.inr hword)
  · exact hword
  · exact hword
  · exact hword
  · exact .inr hword
  · exact hword

theorem reads_quoteRules (h : Rule.first? quoteRules cs = some (rule, m))
    (hsingle : rule.action.isSingle = true) : rule.Reads m := by
  rcases Rule.first?_cons_cases h with ⟨hm, rfl⟩ | ⟨-, h⟩
  · exact reads_unterminatedString hm
  rcases Rule.first?_cons_cases h with ⟨hm, rfl⟩ | ⟨-, h⟩
  · obtain ⟨rest, -, rfl⟩ := Pattern.match?_char_eq_some.1 hm
    exact .inl rfl
  rcases Rule.first?_cons_cases h with ⟨hm, rfl⟩ | ⟨hchar, h⟩
  · exact .inr (Pattern.mem_language_of_match? hm)
  rcases Rule.first?_cons_cases h with ⟨hm, rfl⟩ | ⟨hescape, h⟩
  · simp [Action.isSingle] at hsingle
  rcases Rule.first?_cons_cases h with ⟨hm, rfl⟩ | ⟨-, h⟩
  · exact reads_singleQuote hm hchar hescape
  simp [Rule.first?] at h

theorem reads_rootRules (h : Rule.first? rootRules cs = some (rule, m))
    (hsingle : rule.action.isSingle = true) : rule.Reads m := by
  rcases Rule.first?_append_cases h with h | ⟨-, h⟩
  · rcases Rule.first?_append_cases h with h | ⟨-, h⟩
    · rcases Rule.first?_append_cases h with h | ⟨-, h⟩
      · rcases Rule.first?_append_cases h with h | ⟨hbefore, h⟩
        · rcases Rule.first?_append_cases h with h | ⟨-, h⟩
          · rcases Rule.first?_cons_cases h with ⟨hm, rfl⟩ | ⟨-, h⟩
            · exact Shape.reads_identifierLike (Pattern.mem_language_of_match? hm)
                (Pattern.stops_append Pattern.stops_run hm)
            · simp [Rule.first?] at h
          · exact reads_whitespaceRules h
        · have hopen := hbefore ⟨"comment.open", .blockCommentOpen, .emit .blockComment,
            .push .blockComment⟩ (by simp [whitespaceRules])
          have hline := hbefore ⟨"comment.line", .lineComment, .emit .lineComment, .stay⟩
            (by simp [whitespaceRules])
          exact reads_symbolRules h hopen hline
      · obtain ⟨hmem, h⟩ := Rule.of_first?_eq_some h
        exact reads_numberRules hmem (Rule.match?_eq_some_iff.1 h).1
    · rcases Rule.first?_cons_cases h with ⟨hm, rfl⟩ | ⟨-, h⟩
      · exact .inl (Pattern.mem_language_of_match? hm)
      · simp [Rule.first?] at h
  · exact reads_quoteRules h hsingle

/-- A slash or a star in a comment is read alone only where it does not end the comment. -/
theorem reads_commentSymbol (h : Pattern.commentSymbol.match? cs = some m)
    (hclose : Pattern.commentClose.Misses cs) :
    m.text = ['/'] ∧ cs = '/' :: m.rest ∨ CommentBody m.text m.rest := by
  obtain ⟨c, rest, rfl, hc, rfl⟩ := Pattern.match?_oneOf_eq_some.1 h
  simp only [List.mem_cons, List.not_mem_nil, or_false] at hc
  rcases hc with rfl | rfl
  · exact .inl ⟨rfl, rfl⟩
  · exact .inr (.star rfl hclose.stops)

theorem reads_blockCommentRules (h : Rule.first? blockCommentRules cs = some (rule, m)) :
    rule.Reads m := by
  rcases Rule.first?_cons_cases h with ⟨hm, rfl⟩ | ⟨-, h⟩
  · exact .inr (.inr (commentBody_of_commentText hm))
  rcases Rule.first?_cons_cases h with ⟨hm, rfl⟩ | ⟨hclose, h⟩
  · exact .inr (.inr (commentBody_of_commentClose hm))
  rcases Rule.first?_cons_cases h with ⟨hm, rfl⟩ | ⟨-, h⟩
  · rcases reads_commentSymbol hm hclose with ⟨hslash, -⟩ | hbody
    · exact .inr (.inl hslash)
    · exact .inr (.inr hbody)
  simp [Rule.first?] at h

theorem reads_docCommentRules (h : Rule.first? docCommentRules cs = some (rule, m)) :
    rule.Reads m := by
  rcases Rule.first?_cons_cases h with ⟨hm, rfl⟩ | ⟨-, h⟩
  · exact .inr (.inr (commentBody_of_commentText hm))
  rcases Rule.first?_cons_cases h with ⟨hm, rfl⟩ | ⟨hopen, h⟩
  · obtain ⟨rest, -, rfl⟩ := Pattern.match?_literal_eq_some.1 hm
    exact rfl
  rcases Rule.first?_cons_cases h with ⟨hm, rfl⟩ | ⟨hclose, h⟩
  · exact .inr (.inr (commentBody_of_commentClose hm))
  rcases Rule.first?_cons_cases h with ⟨hm, rfl⟩ | ⟨-, h⟩
  · rcases reads_commentSymbol hm hclose with ⟨hslash, rfl⟩ | hbody
    · exact .inr (.inl ⟨hslash, hopen.stops⟩)
    · exact .inr (.inr hbody)
  simp [Rule.first?] at h

theorem reads_stringRules (h : Rule.first? stringRules cs = some (rule, m)) : rule.Reads m := by
  rcases Rule.first?_cons_cases h with ⟨hm, rfl⟩ | ⟨-, h⟩
  · exact .inr ⟨Pattern.mem_language_of_match? hm, Pattern.stops_run1 hm⟩
  rcases Rule.first?_cons_cases h with ⟨hm, rfl⟩ | ⟨hescape, h⟩
  · exact reads_escape hm
  rcases Rule.first?_cons_cases h with ⟨hm, rfl⟩ | ⟨-, h⟩
  · exact reads_anyEscape hm hescape
  rcases Rule.first?_cons_cases h with ⟨hm, rfl⟩ | ⟨-, h⟩
  · obtain ⟨rest, -, rfl⟩ := Pattern.match?_char_eq_some.1 hm
    exact .inl rfl
  simp [Rule.first?] at h

/-- The first rule of a mode to match reads a word of its category, if it does not divide it. -/
theorem Mode.reads_rules {mode : Mode} (h : Rule.first? mode.rules cs = some (rule, m))
    (hsingle : rule.action.isSingle = true) : rule.Reads m := by
  cases mode with
  | root => exact reads_rootRules h hsingle
  | whitespace => exact reads_whitespaceRules h
  | inside region =>
    cases region with
    | blockComment => exact reads_blockCommentRules h
    | docComment => exact reads_docCommentRules h
    | string => exact reads_stringRules h

/-! ### Characters that no rule reads -/

namespace Pattern

/-- The pattern matches every text. -/
def total : Pattern → Bool
  | empty | run _ | many _ => true
  | one _ _ | run1 _ | notBefore _ => false
  | seq a b => a.total && b.total
  | orElse a b => a.total || b.total

/-- The pattern matches, and not with the empty text, whatever follows the character. -/
def startsAt (c : Char) : Pattern → Bool
  | one p _ | run p | run1 p => p c
  | seq a b => a.startsAt c && b.total
  | orElse a _ => a.startsAt c
  | empty | notBefore _ | many _ => false

@[simp] theorem total_append (a b : Pattern) : (a ++ b).total = (a.total && b.total) := rfl

@[simp] theorem startsAt_append (a b : Pattern) (c : Char) :
    (a ++ b).startsAt c = (a.startsAt c && b.total) := rfl

@[simp] theorem startsAt_run1 (p : Char → Bool) (c : Char) : (run1 p).startsAt c = p c := rfl

theorem exists_match?_of_total {a : Pattern} (h : a.total = true) (cs : List Char) :
    ∃ m, a.match? cs = some m := by
  induction a generalizing cs with
  | empty | run _ | many _ => exact ⟨_, rfl⟩
  | one _ _ | run1 _ | notBefore _ => simp [total] at h
  | seq a b iha ihb =>
    obtain ⟨ha, hb⟩ : a.total = true ∧ b.total = true := by simpa [total] using h
    obtain ⟨x, hx⟩ := iha ha cs
    obtain ⟨y, hy⟩ := ihb hb x.rest
    exact ⟨_, match?_append_eq_some.2 ⟨x, hx, y, hy, rfl⟩⟩
  | orElse a b iha ihb =>
    have hmatch : (a.orElse b).match? cs = (a.match? cs).or (b.match? cs) := rfl
    rw [hmatch]
    cases hx : a.match? cs with
    | some x => exact ⟨x, rfl⟩
    | none =>
      have ha : a.total = false := by
        by_contra ha
        obtain ⟨x, hsome⟩ := iha (by simpa using ha) cs
        simp [hx] at hsome
      exact ihb (by simpa [total, ha] using h) cs

theorem exists_match?_of_startsAt {a : Pattern} {c : Char} (h : a.startsAt c = true)
    (cs : List Char) : ∃ m, a.match? (c :: cs) = some m ∧ m.text ≠ [] := by
  induction a with
  | one p stride =>
    have hp : p c = true := h
    exact ⟨⟨[c], cs⟩, by simp [hp], by simp⟩
  | run p =>
    have hp : p c = true := h
    exact ⟨_, rfl, by simp [hp]⟩
  | run1 p =>
    have hp : p c = true := h
    exact ⟨_, match?_run1_of_pos hp cs, by simp [hp]⟩
  | seq a b iha ihb =>
    obtain ⟨ha, hb⟩ : a.startsAt c = true ∧ b.total = true := by simpa [startsAt] using h
    obtain ⟨x, hx, hne⟩ := iha ha
    obtain ⟨y, hy⟩ := exists_match?_of_total hb x.rest
    exact ⟨x.append y, match?_append_eq_some.2 ⟨x, hx, y, hy, rfl⟩, by simp [Match.append, hne]⟩
  | orElse a b iha ihb =>
    obtain ⟨x, hx, hne⟩ := iha h
    exact ⟨x, Option.or_eq_some_iff.2 (.inl hx), hne⟩
  | empty | notBefore _ | many _ => simp [startsAt] at h

end Pattern

theorem Rule.match?_ne_none_of_startsAt {rule : Rule} {c : Char}
    (h : rule.pattern.startsAt c = true) (cs : List Char) : rule.match? (c :: cs) ≠ none := by
  obtain ⟨m, hm, hne⟩ := Pattern.exists_match?_of_startsAt h cs
  rw [Rule.match?_eq_some_iff.2 ⟨hm, hne⟩]
  simp

/-- Every character that starts a word is read by a rule for code. -/
theorem exists_rule_of_startsWord {c : Char} (h : startsWord c = true) :
    ∃ rule ∈ rootRules, rule.pattern.startsAt c = true := by
  have hinteger : Pattern.integer.startsAt c = c.isDigit := by
    simp [Pattern.integer, Pattern.decimalDigits, Pattern.digits, Pattern.optional, Pattern.total]
  simp only [startsWord, Bool.or_eq_true] at h
  rcases h with ((((((h | h) | h) | h) | h) | h) | h) | h
  · exact ⟨⟨"identifier", .identifier, .classify .identifierLike, .stay⟩, by simp [rootRules],
      (Bool.and_true _).trans h⟩
  · exact ⟨⟨"whitespace", .whitespace, .emit .whitespace, .stay⟩,
      by simp [rootRules, whitespaceRules], h⟩
  · exact ⟨⟨"symbols", .symbolRun, .classify .symbolRun, .stay⟩, by simp [rootRules], h⟩
  · exact ⟨⟨"integer", .integer, .emit .integer, .stay⟩, by simp [rootRules, numberRules],
      hinteger.trans h⟩
  · exact ⟨⟨"bracket", .bracket, .classify .bracket, .stay⟩, by simp [rootRules], h⟩
  · exact ⟨⟨"punctuation", .punctuation, .emit .delimiter, .stay⟩, by simp [rootRules], h⟩
  · exact ⟨⟨"string.open", .doubleQuote, .emit .string, .push .string⟩,
      by simp [rootRules, quoteRules], h⟩
  · exact ⟨⟨"char.invalid", .singleQuote, .emit .charInvalid, .stay⟩,
      by simp [rootRules, quoteRules], h⟩

/-- Inside a region every character but a backslash is read by a rule. -/
theorem exists_rule_of_ne_backslash (region : Region) {c : Char} (h : c ≠ '\\') :
    ∃ rule ∈ (Mode.inside region).rules, rule.pattern.startsAt c = true := by
  rw [← List.any_eq_true]
  cases region <;>
    simp [Mode.rules, blockCommentRules, docCommentRules, stringRules, Pattern.commentText,
      Pattern.commentSymbol, Pattern.stringText, Pattern.doubleQuote, Pattern.oneOf, Pattern.char,
      Pattern.startsAt, h] <;>
    tauto

theorem reads_invalid {modes : ModeStack} {c : Char}
    (h : Rule.first? modes.top.rules (c :: cs) = none) : Category.invalid.Reads [c] cs := by
  have hnone : ∀ rule ∈ modes.top.rules, rule.match? (c :: cs) = none := by
    simpa [Rule.first?] using h
  rcases modes.top_cases with htop | ⟨region, htop⟩
  · rw [htop] at hnone
    refine ⟨⟨c, rfl, ?_⟩, ?_⟩
    · rw [← Bool.not_eq_true]
      intro hstarts
      obtain ⟨rule, hmem, hrule⟩ := exists_rule_of_startsWord hstarts
      exact Rule.match?_ne_none_of_startsAt hrule cs (hnone rule hmem)
    · intro w hw
      have hrule := hnone ⟨"annotation", .annotationName, .emit .annotationName, .stay⟩
        (by simp [Mode.rules, rootRules])
      exact Pattern.findsLongest_annotationName.not_prefix (Rule.misses_iff.1 hrule) hw
        (ne_nil_of_mem_quoted hw)
  · rw [htop] at hnone
    -- inside a region only a backslash can be left over
    have hc : c = '\\' := by
      by_contra hne
      obtain ⟨rule, hmem, hrule⟩ := exists_rule_of_ne_backslash region hne
      exact Rule.match?_ne_none_of_startsAt hrule cs (hnone rule hmem)
    subst hc
    refine ⟨⟨_, rfl, by decide⟩, ?_⟩
    intro w hw hstart
    rw [Grammar.annotationName, mul_assoc, mem_char_mul] at hw
    obtain ⟨v, -, rfl⟩ := hw
    simp at hstart

end

/-! ### Words by the tokens -/

/-- Each token reads a word of its category, where `rest` follows the last of them. -/
def ReadsAll : List Token → List Char → Prop
  | [], _ => True
  | t :: ts, rest => t.category.Reads t.text (ts.flatMap Token.text ++ rest) ∧ ReadsAll ts rest

theorem readsAll_append (xs ys : List Token) (rest : List Char) :
    ReadsAll (xs ++ ys) rest ↔ ReadsAll xs (ys.flatMap Token.text ++ rest) ∧ ReadsAll ys rest := by
  induction xs with
  | nil => simp [ReadsAll]
  | cons t ts ih => simp only [List.cons_append, ReadsAll, List.flatMap_append, List.append_assoc,
      ih, and_assoc]

theorem Action.lexemes_of_isSingle_eq {action : Action} (h : action.isSingle = true)
    (text : List Char) : action.lexemes text = (⟨action.category text, text⟩, []) := by
  cases action with
  | emit category => rfl
  | classify shape => rfl
  | enclosed mark body => simp [isSingle] at h

/-- An escape sequence between quotes gives three words. -/
theorem readsAll_charEscape {start : Nat} {modes : ModeStack} {cs : List Char} {m : Match}
    (h : Pattern.charEscapeLiteral.match? cs = some m) :
    ReadsAll (Step.tokens ⟨start, modes,
      some ⟨"char.escape", .charEscapeLiteral, .enclosed .char .stringEscape, .stay⟩,
      m.text, m.rest⟩) m.rest := by
  obtain ⟨body, hbody, htext, hescape⟩ := Pattern.exists_of_match?_charEscapeLiteral h
  have hlexemes := Action.lexemes_enclosed .char .stringEscape (a := '\'') (b := '\'') hbody
  rw [Step.tokens_eq_layout, Step.lexemes]
  simp only [htext, hlexemes]
  exact ⟨.inl rfl, reads_escape hescape, .inl rfl, trivial⟩

/-- A step reads words. -/
theorem readsAll_step (start : Nat) (modes : ModeStack) (c : Char) (cs : List Char) :
    ReadsAll (step start modes c cs).tokens (step start modes c cs).rest := by
  cases h : Rule.first? modes.top.rules (c :: cs) with
  | none =>
    rw [step, h]
    exact ⟨reads_invalid h, trivial⟩
  | some found =>
    obtain ⟨rule, m⟩ := found
    obtain ⟨hmem, hmatch⟩ := Rule.of_first?_eq_some h
    rw [step_of_first? h]
    rcases isSingle_or_charEscape _ rule hmem with hsingle | rfl
    · rw [Step.tokens_eq_layout, Step.lexemes]
      simp only [Action.lexemes_of_isSingle_eq hsingle]
      exact ⟨Mode.reads_rules h hsingle, trivial⟩
    · exact readsAll_charEscape (Rule.match?_eq_some_iff.1 hmatch).1

/-- All steps of a scan read words. -/
theorem readsAll_steps (start : Nat) (modes : ModeStack) (cs : List Char) :
    ReadsAll ((steps start modes cs).flatMap Step.tokens) [] := by
  fun_induction steps start modes cs with
  | case1 => exact trivial
  | case2 start modes c cs s ih =>
    have hrest := flatMap_text_tokens_steps s.stop s.after s.rest
    rw [List.flatMap_cons, readsAll_append, hrest, List.append_nil]
    exact ⟨readsAll_step start modes c cs, ih⟩

/--
Every token of a scan reads a word of its category, at its own place in the source and up to where
the category has it end.
-/
theorem tokens_read_words (modes : ModeStack) (source : List Char) :
    ∀ t ∈ tokens modes source, ∃ before after, source = before ++ (t.text ++ after) ∧
      t.start = Text.width before ∧ t.category.Reads t.text after := by
  intro t ht
  obtain ⟨xs, ys, hsplit⟩ := List.append_of_mem ht
  have htext : (tokens modes source).flatMap Token.text = source :=
    flatMap_text_tokens_steps 0 modes source
  have hlaid : LaidFrom 0 (tokens modes source) := laidFrom_steps 0 modes source
  have hreads : ReadsAll (tokens modes source) [] := readsAll_steps 0 modes source
  rw [hsplit] at htext hlaid hreads
  have hword := ((readsAll_append xs (t :: ys) []).1 hreads).2.1
  rw [List.append_nil] at hword
  refine ⟨xs.flatMap Token.text, ys.flatMap Token.text, ?_, ?_, hword⟩
  · rw [← htext, List.flatMap_append, List.flatMap_cons]
  · rw [hlaid.start_eq, Nat.zero_add]

/-- Between identifiers, an angle bracket that no symbol follows is a bracket. -/
theorem tokens_read_words_angle :
    ⟨.bracket .angle, 1, ['<']⟩ ∈ tokens {} ['a', '<', 'b'] ∧
      ∃ before after, ['a', '<', 'b'] = before ++ (['<'] ++ after) ∧ 1 = Text.width before ∧
        (Category.bracket .angle).Reads ['<'] after := by
  have hmem : ⟨.bracket .angle, 1, ['<']⟩ ∈ tokens {} ['a', '<', 'b'] := by decide +kernel
  exact ⟨hmem, tokens_read_words {} ['a', '<', 'b'] _ hmem⟩

end Tokenizer
