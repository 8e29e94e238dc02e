import Tokenizer.Proofs.Hole
import Tokenizer.Proofs.Number
import Tokenizer.Proofs.QuoteEdit

/-!
Lexemes alone. What a step reads is read the same way when nothing follows it: a pattern that finds
the longest of its words finds this word again, and one that found no word finds none in less text.
Three rules look past what they read; they are taken one by one. The quote that opens a string is
the exception, since what follows it decides that it opens one.
-/
namespace Tokenizer

open CharClass
open scoped Computability

namespace Pattern

/-- What the pattern reads, it reads also where nothing follows. -/
def ReadsAlone (a : Pattern) : Prop :=
  ∀ {cs m}, a.match? cs = some m → a.match? m.text = some ⟨m.text, []⟩

/-- Where the pattern finds nothing, it finds nothing in less text. -/
def MissesLess (a : Pattern) : Prop := ∀ {cs w}, a.Misses cs → w <+: cs → a.Misses w

namespace FindsLongest

variable {a : Pattern} {l : CharLanguage}

theorem readsAlone (h : FindsLongest a l) : a.ReadsAlone := by
  intro cs m hm
  obtain ⟨n, hn, hle⟩ := h.longest (h.mem hm) (List.prefix_refl m.text)
  have hsplit := a.match?_split hn
  have hlength := congrArg List.length hsplit
  rw [List.length_append] at hlength
  have hrest : n.rest = [] := List.eq_nil_of_length_eq_zero (by omega)
  have htext : n.text = m.text := by simpa [hrest] using hsplit
  rw [hn, ← htext, ← hrest]

theorem missesLess (h : FindsLongest a l) : a.MissesLess := by
  intro cs w hmiss hprefix m hm
  by_contra hne
  exact h.not_prefix hmiss (h.mem hm) hne ((text_prefix_of_match? hm).trans hprefix)

end FindsLongest

theorem findsLongest_literal (ws : List Char) : FindsLongest (literal ws) ({ws} : CharLanguage) where
  mem := by
    intro cs m h
    obtain ⟨rest, -, rfl⟩ := match?_literal_eq_some.1 h
    exact rfl
  longest := by
    rintro cs w rfl ⟨rest, rfl⟩
    exact ⟨⟨w, rest⟩, match?_literal_eq_some.2 ⟨rest, rfl, rfl⟩, Nat.le_refl _⟩

theorem findsLongest_lineComment :
    FindsLongest lineComment (({['/', '/']} : CharLanguage) * (Grammar.letter (!isLineBreak ·))∗) := by
  refine (findsLongest_literal ['/', '/']).seq (.run _) ?_
  rintro _ rfl v - - _ rfl rest - -
  rfl

theorem readsAlone_docCommentOpen : docCommentOpen.ReadsAlone := by
  intro cs m hm
  obtain ⟨x, hx, y, hy, rfl⟩ := match?_append_eq_some.1 hm
  obtain ⟨rest, -, rfl⟩ := match?_literal_eq_some.1 hx
  obtain ⟨-, rfl⟩ : _ ∧ ⟨[], rest⟩ = y := by simpa using hy
  rfl

theorem readsAlone_loneAngle : loneAngle.ReadsAlone := by
  intro cs m hm
  obtain ⟨x, hx, y, hy, rfl⟩ := match?_append_eq_some.1 hm
  obtain ⟨c, rest, -, hc, rfl⟩ := match?_oneOf_eq_some.1 hx
  obtain ⟨-, rfl⟩ : _ ∧ ⟨[], rest⟩ = y := by simpa using hy
  exact match?_append_eq_some.2
    ⟨⟨[c], []⟩, match?_oneOf_eq_some.2 ⟨c, [], rfl, hc, rfl⟩, ⟨[], []⟩, rfl, rfl⟩

theorem readsAlone_unterminatedString : unterminatedString.ReadsAlone := by
  intro cs m hm
  obtain ⟨body, tail, -, hbody, -, rfl⟩ := of_match?_unterminatedString hm
  have hline : unterminatedString.match? ('"' :: (body ++ [])) = some ⟨'"' :: body, []⟩ :=
    match?_unterminatedString_line hbody (by simp)
  rwa [List.append_nil] at hline

end Pattern

/-! ### The rules -/

/-- The rules that look at what follows their match. -/
def lookaheadRules : List Rule :=
  [⟨"doc.open", .docCommentOpen, .emit .docComment, .push .docComment⟩,
    ⟨"angle", .loneAngle, .classify .bracket, .stay⟩,
    ⟨"string.unterminated", .unterminatedString, .emit .stringInvalid, .stay⟩]

/-- The rule finds the longest word of some language, or looks at what follows. -/
def Rule.FindsWords (rule : Rule) : Prop :=
  (∃ l, rule.pattern.FindsLongest l) ∨ rule ∈ lookaheadRules

theorem findsWords_whitespaceRules : ∀ rule ∈ whitespaceRules, rule.FindsWords := by
  simp only [whitespaceRules, List.forall_mem_cons]
  exact ⟨.inl ⟨_, Pattern.FindsLongest.run1 _⟩, .inr (by simp [lookaheadRules]),
    .inl ⟨_, Pattern.findsLongest_literal _⟩, .inl ⟨_, Pattern.findsLongest_lineComment⟩, by simp⟩

theorem findsWords_symbolRules : ∀ rule ∈ ([⟨"bracket", .bracket, .classify .bracket, .stay⟩,
    ⟨"angle", .loneAngle, .classify .bracket, .stay⟩,
    ⟨"symbols", .symbolRun, .classify .symbolRun, .stay⟩,
    ⟨"annotation", .annotationName, .emit .annotationName, .stay⟩] : List Rule),
    rule.FindsWords := by
  simp only [List.forall_mem_cons]
  exact ⟨.inl ⟨_, .one _⟩, .inr (by simp [lookaheadRules]), .inl ⟨_, Pattern.FindsLongest.run1 _⟩,
    .inl ⟨_, Pattern.findsLongest_annotationName⟩, by simp⟩

theorem findsWords_quoteRules : ∀ rule ∈ quoteRules, rule.FindsWords := by
  simp only [quoteRules, List.forall_mem_cons]
  exact ⟨.inr (by simp [lookaheadRules]), .inl ⟨_, .one _⟩,
    .inl ⟨_, Pattern.findsLongest_charLiteral⟩, .inl ⟨_, Pattern.findsLongest_charEscapeLiteral⟩,
    .inl ⟨_, .one _⟩, by simp⟩

/-- Every rule finds words, but for those that look ahead. -/
theorem findsWords_rules (mode : Mode) : ∀ rule ∈ mode.rules, rule.FindsWords := by
  cases mode with
  | root =>
    have hname : Rule.FindsWords ⟨"identifier", .identifier, .classify .identifierLike, .stay⟩ :=
      .inl ⟨_, (Pattern.FindsLongest.run _).letter_seq _⟩
    have hpunctuation : Rule.FindsWords ⟨"punctuation", .punctuation, .emit .delimiter, .stay⟩ :=
      .inl ⟨_, .one _⟩
    simp only [Mode.rules, rootRules, List.forall_mem_append]
    exact ⟨⟨⟨⟨⟨by simpa using hname, findsWords_whitespaceRules⟩, findsWords_symbolRules⟩,
      fun rule hmem => .inl ⟨_, findsLongest_numberRules rule hmem⟩⟩, by simpa using hpunctuation⟩,
      findsWords_quoteRules⟩
  | whitespace => exact findsWords_whitespaceRules
  | inside region =>
    have hclose := Pattern.findsLongest_literal ['*', '/']
    have hopen := Pattern.findsLongest_literal ['/', '*']
    cases region with
    | blockComment =>
      simp only [Mode.rules, blockCommentRules, List.forall_mem_cons]
      exact ⟨.inl ⟨_, Pattern.FindsLongest.run1 _⟩, .inl ⟨_, hclose⟩, .inl ⟨_, .one _⟩, by simp⟩
    | docComment =>
      simp only [Mode.rules, docCommentRules, List.forall_mem_cons]
      exact ⟨.inl ⟨_, Pattern.FindsLongest.run1 _⟩, .inl ⟨_, hopen⟩, .inl ⟨_, hclose⟩,
        .inl ⟨_, .one _⟩, by simp⟩
    | string =>
      simp only [Mode.rules, stringRules, List.forall_mem_cons]
      exact ⟨.inl ⟨_, Pattern.FindsLongest.run1 _⟩, .inl ⟨_, Pattern.findsLongest_escape⟩,
        .inl ⟨_, (Pattern.FindsLongest.one _ .whole).letter_seq _⟩, .inl ⟨_, .one _⟩, by simp⟩

theorem Rule.FindsWords.readsAlone {rule : Rule} (h : rule.FindsWords) :
    rule.pattern.ReadsAlone := by
  rcases h with ⟨l, h⟩ | h
  · exact h.readsAlone
  · simp only [lookaheadRules, List.mem_cons, List.not_mem_nil, or_false] at h
    rcases h with rfl | rfl | rfl
    · exact Pattern.readsAlone_docCommentOpen
    · exact Pattern.readsAlone_loneAngle
    · exact Pattern.readsAlone_unterminatedString

/-- If no rule finds more in the text of a match than it did before, the match is found again. -/
theorem Rule.first?_text {rules : List Rule} {cs : List Char} {rule : Rule} {m : Match}
    (h : first? rules cs = some (rule, m))
    (halone : rule.pattern.match? m.text = some ⟨m.text, []⟩)
    (hmiss : ∀ r ∈ rules, r.pattern.Misses cs → r.pattern.Misses m.text) :
    first? rules m.text = some (rule, ⟨m.text, []⟩) := by
  induction rules with
  | nil => simp [first?] at h
  | cons r rules ih =>
    obtain ⟨hr, hrules⟩ := List.forall_mem_cons.1 hmiss
    rcases first?_cons_cases h with ⟨-, rfl⟩ | ⟨hmisses, h'⟩
    · have hne := (match?_eq_some_iff.1 (of_first?_eq_some h).2).2
      exact first?_cons_of_match? (match?_eq_some_iff.2 ⟨halone, hne⟩) rules
    · rw [first?_cons_of_eq_none (misses_iff.2 (hr hmisses))]
      exact ih h' hrules

/-! ### The rules that look ahead -/

section
variable {cs : List Char} {rule : Rule} {m : Match}
  (h : Rule.first? rootRules cs = some (rule, m))
include h

theorem append_of_first? : m.text ++ m.rest = cs :=
  rule.pattern.match?_split (Rule.match?_eq_some_iff.1 (Rule.of_first?_eq_some h).2).1

/-- A text that looks like the opener of a doc comment and is none opens a block comment. -/
theorem misses_docCommentOpen_text (hmiss : Pattern.docCommentOpen.Misses cs) :
    Pattern.docCommentOpen.Misses m.text := by
  intro n hn
  exfalso
  obtain ⟨x, hx, -⟩ := Pattern.match?_append_eq_some.1 hn
  obtain ⟨rest, htext, -⟩ := Pattern.match?_literal_eq_some.1 hx
  have hcs := append_of_first? h
  rw [htext] at hcs
  have hrules : rootRules.filter (·.pattern.canStart '/') =
      [⟨"doc.open", .docCommentOpen, .emit .docComment, .push .docComment⟩,
        ⟨"comment.open", .blockCommentOpen, .emit .blockComment, .push .blockComment⟩,
        ⟨"comment.line", .lineComment, .emit .lineComment, .stay⟩,
        ⟨"symbols", .symbolRun, .classify .symbolRun, .stay⟩] := rfl
  rw [← hcs, List.cons_append, List.cons_append, ← Rule.first?_filter_canStart, hrules] at h
  rcases Rule.first?_cons_cases h with ⟨hm, -⟩ | ⟨-, h⟩
  · rw [hmiss m (by rw [← hcs]; exact hm)] at htext
    simp at htext
  rcases Rule.first?_cons_cases h with ⟨hm, -⟩ | ⟨hblock, -⟩
  · obtain ⟨tail, -, rfl⟩ := Pattern.match?_literal_eq_some.1 hm
    simp at htext
  · have hnil := hblock ⟨['/', '*'], _⟩ (Pattern.match?_literal_eq_some.2 ⟨_, rfl, rfl⟩)
    simp at hnil

/-- An angle bracket that goes on as a run of symbols is not alone in the text of the run. -/
theorem misses_loneAngle_text (hmiss : Pattern.loneAngle.Misses cs) :
    Pattern.loneAngle.Misses m.text := by
  intro n hn
  exfalso
  obtain ⟨x, hx, y, hy, -⟩ := Pattern.match?_append_eq_some.1 hn
  obtain ⟨c, rest, htext, hc, rfl⟩ := Pattern.match?_oneOf_eq_some.1 hx
  have hcs := append_of_first? h
  rw [htext] at hcs
  have hrules : rootRules.filter (·.pattern.canStart c) =
      [⟨"angle", .loneAngle, .classify .bracket, .stay⟩,
        ⟨"symbols", .symbolRun, .classify .symbolRun, .stay⟩] := by
    obtain rfl | rfl : c = '<' ∨ c = '>' := by simpa using hc
    · rfl
    · rfl
  rw [← hcs, List.cons_append, ← Rule.first?_filter_canStart, hrules] at h
  rcases Rule.first?_cons_cases h with ⟨hm, -⟩ | ⟨-, h⟩
  · rw [hmiss m (by rw [← hcs]; exact hm)] at htext
    simp at htext
  rcases Rule.first?_cons_cases h with ⟨hm, -⟩ | ⟨-, h⟩
  · have hstop := Pattern.stops_run1 hm
    have hreads : Pattern.symbolRun.ReadsOnly fun d => isSymbol d = true :=
      fun _ hd => hd
    have hsymbols := Pattern.forall_mem_of_match? hreads hm
    -- a symbol after the bracket would keep it from being alone in the text
    obtain rfl : rest = [] := by
      cases rest with
      | nil => rfl
      | cons d rest =>
        have hd : isSymbol d = true := hsymbols d (by simp [htext])
        simp [hd] at hy
    have hhead : m.rest.head?.any isSymbol = false := by
      cases hnext : m.rest.head? with
      | none => rfl
      | some d => exact hstop d hnext
    have halone : Pattern.loneAngle.match? cs = some ⟨[c], m.rest⟩ :=
      Pattern.match?_append_eq_some.2 ⟨⟨[c], m.rest⟩,
        Pattern.match?_oneOf_eq_some.2 ⟨c, m.rest, hcs.symm, hc, rfl⟩, ⟨[], m.rest⟩,
        by simp [hhead], rfl⟩
    have hnil := hmiss _ halone
    simp at hnil
  · simp [Rule.first?] at h

/-- At a quote that starts no unterminated string, a string is opened. -/
theorem misses_unterminatedString_text
    (hopen : rule ≠ ⟨"string.open", .doubleQuote, .emit .string, .push .string⟩)
    (hmiss : Pattern.unterminatedString.Misses cs) :
    Pattern.unterminatedString.Misses m.text := by
  intro n hn
  exfalso
  obtain ⟨body, tail, htext, -⟩ := of_match?_unterminatedString hn
  have hcs := append_of_first? h
  rw [htext, List.cons_append] at hcs
  have hroot : ModeStack.top {} = .root := rfl
  have hquote := first?_root_quote hroot (body ++ tail ++ m.rest)
  rw [← hcs] at h
  rcases Rule.first?_cons_cases (hquote.symm.trans h) with ⟨hm, -⟩ | ⟨-, h⟩
  · rw [hmiss m (by rw [← hcs]; exact hm)] at htext
    simp at htext
  rcases Rule.first?_cons_cases h with ⟨-, rfl⟩ | ⟨-, h⟩
  · exact hopen rfl
  · simp [Rule.first?] at h

theorem misses_lookahead_text
    (hopen : rule ≠ ⟨"string.open", .doubleQuote, .emit .string, .push .string⟩) :
    ∀ r ∈ lookaheadRules, r.pattern.Misses cs → r.pattern.Misses m.text := by
  simp only [lookaheadRules, List.forall_mem_cons]
  exact ⟨misses_docCommentOpen_text h, misses_loneAngle_text h,
    misses_unterminatedString_text h hopen, by simp⟩

end

theorem notMem_lookaheadRules (region : Region) :
    ∀ rule ∈ (Mode.inside region).rules, rule ∉ lookaheadRules := by
  cases region <;>
    simp [Mode.rules, blockCommentRules, docCommentRules, stringRules, lookaheadRules]

/-- The rule that is found matches its own text again, unless it opens a string. -/
theorem ModeStack.first?_text {modes : ModeStack} {cs : List Char} {rule : Rule} {m : Match}
    (h : Rule.first? modes.top.rules cs = some (rule, m))
    (hopen : rule ≠ ⟨"string.open", .doubleQuote, .emit .string, .push .string⟩) :
    Rule.first? modes.top.rules m.text = some (rule, ⟨m.text, []⟩) := by
  obtain ⟨hmem, hmatch⟩ := Rule.of_first?_eq_some h
  have hm := (Rule.match?_eq_some_iff.1 hmatch).1
  refine Rule.first?_text h ((findsWords_rules _ rule hmem).readsAlone hm) ?_
  intro r hr hmiss
  rcases findsWords_rules _ r hr with ⟨l, hfinds⟩ | hlook
  · exact hfinds.missesLess hmiss (Pattern.text_prefix_of_match? hm)
  · rcases modes.top_cases with htop | ⟨region, htop⟩
    · rw [htop] at h
      exact misses_lookahead_text h hopen r hlook hmiss
    · rw [htop] at hr
      exact absurd hlook (notMem_lookaheadRules region r hr)

theorem ModeStack.hole_nil {modes : ModeStack} {c : Char} {cs : List Char}
    (h : modes.hole c cs = true) : modes.hole c [] = true := by
  obtain ⟨regions⟩ := modes
  cases regions with
  | nil =>
    have hnames : namesNext [] = false := rfl
    simp only [hole, hnames] at h ⊢
    revert h
    cases isUnusedInCode c <;> cases c == '@' <;> simp
  | cons region regions =>
    cases region with
    | string =>
      obtain ⟨rfl, -⟩ : c = '\\' ∧ _ := by simpa [hole] using h
      rfl
    | blockComment | docComment => simp [hole] at h

/-! ### Steps -/

/-- The step that reads the same text by the same rule where there is nothing else. -/
def Step.alone (s : Step) (modes : ModeStack) : Step := ⟨0, modes, s.rule?, s.text, []⟩

theorem Step.map_shift_tokens_alone (s : Step) (modes : ModeStack) :
    (s.alone modes).tokens.map (Token.shift s.start) = s.tokens := by
  rw [← Step.tokens_shift]
  rfl

theorem opensString_of_rule {s : Step} {c : Char} {cs : List Char}
    (hs : s = step s.start s.modes c cs)
    (hrule : s.rule? = some ⟨"string.open", .doubleQuote, .emit .string, .push .string⟩) :
    s.OpensString := by
  rcases step_cases s.start s.modes c cs with ⟨rule, m, -, hmatch, hstep⟩ | hstep
  · rw [← hs] at hstep
    obtain rfl : rule = ⟨"string.open", .doubleQuote, .emit .string, .push .string⟩ := by
      rw [hstep] at hrule
      exact Option.some.inj hrule
    obtain ⟨rest, -, rfl⟩ :=
      Pattern.match?_char_eq_some.1 (Rule.match?_eq_some_iff.1 hmatch).1
    rw [hstep]
    exact ⟨Step.tokens_of_emit rfl rfl, rfl⟩
  · rw [hs, hstep] at hrule
    simp at hrule

/-- A text that a single match uses up is read in one step. -/
theorem scan_of_first? {modes : ModeStack} {text : List Char} {rule : Rule}
    (h : Rule.first? modes.top.rules text = some (rule, ⟨text, []⟩)) :
    scan modes text = [⟨0, modes, some rule, text, []⟩] := by
  have hne := (Rule.match?_eq_some_iff.1 (Rule.of_first?_eq_some h).2).2
  obtain ⟨c, cs, rfl⟩ := List.exists_cons_of_ne_nil hne
  rw [scan, steps_cons, step_of_first? h, steps_nil]

theorem scan_of_hole {modes : ModeStack} {c : Char} (h : modes.hole c [] = true) :
    scan modes [c] = [⟨0, modes, none, [c], []⟩] := by
  rw [scan, steps_cons, step_of_hole h, steps_nil]

/-- A step that opens no string is taken again where its text is all there is. -/
theorem scan_text_step {s : Step} {c : Char} {cs : List Char}
    (hs : s = step s.start s.modes c cs) (hopen : ¬s.OpensString) {modes : ModeStack}
    (htop : modes.top = s.mode) : scan modes s.text = [s.alone modes] := by
  have htop : modes.top = s.modes.top := htop
  cases h : Rule.first? s.modes.top.rules (c :: cs) with
  | none =>
    have hstep : s = ⟨s.start, s.modes, none, [c], cs⟩ := by
      rw [step, h] at hs
      exact hs
    have halone := (s.modes.first?_eq_none_iff c []).2
      (ModeStack.hole_nil ((s.modes.first?_eq_none_iff c cs).1 h))
    rw [← htop, ModeStack.first?_eq_none_iff] at halone
    rw [hstep]
    exact scan_of_hole halone
  | some found =>
    obtain ⟨rule, m⟩ := found
    have hstep : s = ⟨s.start, s.modes, some rule, m.text, m.rest⟩ :=
      hs.trans (step_of_first? h s.start)
    have hrule : rule ≠ ⟨"string.open", .doubleQuote, .emit .string, .push .string⟩ := by
      rintro rfl
      exact hopen (opensString_of_rule hs (by rw [hstep]))
    have halone := ModeStack.first?_text h hrule
    rw [← htop] at halone
    rw [hstep]
    exact scan_of_first? halone

/--
Any step of a scan but one that opens a string depends on its mode and its text only. Scanned on
its own from any stack with that mode on top, the text is read in one step, by the same rule and
into the same tokens, which then start at byte 0.
-/
theorem scan_lexeme_alone (modes : ModeStack) (source : List Char) :
    ∀ s ∈ scan modes source, ¬s.OpensString → ∀ other : ModeStack, other.top = s.mode →
      scan other s.text = [s.alone other] ∧
        (tokens other s.text).map (Token.shift s.start) = s.tokens := by
  intro s hs hopen other htop
  obtain ⟨taken, left, hscan⟩ := List.append_of_mem hs
  obtain ⟨c, cs, -, hstep, -⟩ := steps_eq_append_cons hscan
  have hself : s = step s.start s.modes c cs := by
    rw [hstep, step_start, step_modes]
  have halone := scan_text_step hself hopen htop
  refine ⟨halone, ?_⟩
  rw [tokens, halone, List.flatMap_singleton]
  exact s.map_shift_tokens_alone other

/-- An octal number that a digit beyond its base cuts short is that octal number also alone. -/
theorem scan_lexeme_alone_octal :
    ∃ s ∈ scan {} ['0', '1', '7', '8'], s.text = ['0', '1', '7'] ∧ ¬s.OpensString ∧
      ModeStack.top {} = s.mode ∧ scan {} s.text = [s.alone {}] ∧
        (tokens {} s.text).map (Token.shift s.start) = s.tokens := by
  have hmem : step 0 {} '0' ['1', '7', '8'] ∈ scan {} ['0', '1', '7', '8'] := by
    rw [scan, steps_cons]
    exact List.mem_cons_self
  have htext : (step 0 {} '0' ['1', '7', '8']).text = ['0', '1', '7'] := by decide +kernel
  have hopen : ¬(step 0 {} '0' ['1', '7', '8']).OpensString := by
    intro h
    have hafter : (step 0 {} '0' ['1', '7', '8']).after ≠
        (step 0 {} '0' ['1', '7', '8']).modes.enter .string := by
      decide +kernel
    exact hafter h.after_eq
  have htop : ModeStack.top {} = (step 0 {} '0' ['1', '7', '8']).mode := by decide +kernel
  exact ⟨_, hmem, htext, hopen, htop, scan_lexeme_alone {} _ _ hmem hopen {} htop⟩

/-- The quote that opens a string is an unterminated string when it is alone. -/
example : tokens {} ['"', '"'] = [⟨.string, 0, ['"']⟩, ⟨.string, 1, ['"']⟩] ∧
    tokens {} ['"'] = [⟨.stringInvalid, 0, ['"']⟩] := by decide +kernel

end Tokenizer
