import Tokenizer.Proofs.Grammar
import Tokenizer.Proofs.Layout
import Tokenizer.Proofs.Lookahead

/-!
The words of the categories, and what the patterns read. The text of a token has to be a word of
its category, and where the category is read in runs, the run has to go on as far as it can.
-/
namespace Tokenizer

open CharClass Grammar
open scoped Computability

/-- The text is at its end, or goes on with a character outside the class. -/
def Stops (p : Char → Bool) (after : List Char) : Prop := ∀ c ∈ after.head?, p c = false

def isStringText (c : Char) : Bool := c != '\\' && c != '"'

def isCommentText (c : Char) : Bool := c != '/' && c != '*'

def Bracket.chars : Bracket → List Char
  | curly => ['\x7b', '\x7d']
  | paren => ['(', ')']
  | square => ['[', ']']
  | angle => ['<', '>']

/-- What block and doc comments have in common past their openers: text, stars and the end. -/
inductive CommentBody (text after : List Char) : Prop where
  | close (htext : text = ['*', '/'])
  | star (htext : text = ['*']) (hstop : Stops (· == '/') after)
  | run (htext : text ∈ plus (letter isCommentText)) (hstop : Stops isCommentText after)

/-- A character with which a word of code starts wherever it stands; an `@` is none. -/
def startsWord (c : Char) : Bool :=
  isIdentifierStart c || isSpace c || isSymbol c || c.isDigit ||
    ['\x7b', '\x7d', '(', ')', '[', ']'].contains c || [';', ',', '.'].contains c || c == '"' ||
    c == '\''

/-- The text is a word of the category at a place where `after` follows it. -/
def Category.Reads (text after : List Char) : Category → Prop
  | identifier =>
    text ∈ Grammar.identifier ∧ String.ofList text ∉ keywords ∧ Stops isIdentifierPart after
  | keyword word => text = word.spelling.toList ∧ Stops isIdentifierPart after
  | operator =>
    String.ofList text ∈ operators ∧ text ≠ ['<'] ∧ text ≠ ['>'] ∧ Stops isSymbol after
  | delimiter =>
    text ∈ oneOf [';', ',', '.'] ∨
      text ∈ plus (letter isSymbol) ∧ String.ofList text ∉ operators ∧
        ¬['/', '/'] <+: text ∧ ¬['/', '*'] <+: text ∧ Stops isSymbol after
  | bracket .angle => text ∈ oneOf Bracket.angle.chars ∧ Stops isSymbol after
  | bracket kind => text ∈ oneOf kind.chars
  | annotationName => text ∈ Grammar.annotationName ∧ Stops isIdentifierPart after
  | integer => text ∈ Grammar.integer
  | float => text ∈ scientificFloat + decimalFloat + suffixedFloat
  | hex => text ∈ hexNumber
  | octal => text ∈ octalNumber
  | binary => text ∈ binaryNumber
  | string =>
    text = ['"'] ∨ text ∈ plus (letter isStringText) ∧ Stops isStringText after
  | stringEscape =>
    text ∈ escape ∧ ∀ w ∈ escape, w <+: text ++ after → w.length ≤ text.length
  | stringEscapeInvalid =>
    (∃ c, text = ['\\', c] ∧ isLineBreak c = false) ∧ ∀ w ∈ escape, ¬w <+: text ++ after
  | stringInvalid =>
    ['"'] <+: text ∧ (∀ c ∈ text, isLineBreak c = false) ∧ Stops (!isLineBreak ·) after
  | char => text = ['\''] ∨ text ∈ charLiteral
  | charInvalid =>
    text = ['\''] ∧ ∀ w ∈ charLiteral + charEscapeLiteral, ¬w <+: text ++ after
  | lineComment =>
    ['/', '/'] <+: text ∧ (∀ c ∈ text, isLineBreak c = false) ∧ Stops (!isLineBreak ·) after
  | blockComment =>
    text = ['/', '*'] ∧ (∀ rest, after = '*' :: rest → rest.head? = some '/') ∨
      text = ['/'] ∨ CommentBody text after
  | docComment =>
    text = ['/', '*', '*'] ∧ Stops (· == '/') after ∨
      text = ['/'] ∧ Stops (· == '*') after ∨ CommentBody text after
  | docCommentInvalid => text = ['/', '*']
  | whitespace => text ∈ plus (letter isSpace) ∧ Stops isSpace after
  | invalid =>
    (∃ c, text = [c] ∧ startsWord c = false) ∧ ∀ w ∈ Grammar.annotationName, ¬w <+: text ++ after

/-! ### What follows a match -/

namespace Pattern

theorem stops_run {p : Char → Bool} {cs : List Char} {m : Match} (h : (run p).match? cs = some m) :
    Stops p m.rest := by
  obtain rfl : ⟨cs.takeWhile p, cs.dropWhile p⟩ = m := by simpa [match?] using h
  intro c hc
  have hnot := List.head?_dropWhile_not p cs
  rw [Option.mem_def.1 hc] at hnot
  simpa using hnot

theorem stops_run1 {p : Char → Bool} {cs : List Char} {m : Match}
    (h : (run1 p).match? cs = some m) : Stops p m.rest := by
  obtain ⟨-, -, -, -, rfl⟩ := match?_run1_eq_some.1 h
  have hrun : (run p).match? cs = some ⟨cs.takeWhile p, cs.dropWhile p⟩ := rfl
  exact stops_run hrun

theorem stops_notBefore {p : Char → Bool} {cs : List Char} {m : Match}
    (h : (notBefore p).match? cs = some m) : Stops p m.rest := by
  obtain ⟨hnot, rfl⟩ : ¬cs.head?.any p = true ∧ ⟨[], cs⟩ = m := by simpa [match?] using h
  intro c hc
  rw [Option.mem_def.1 hc] at hnot
  simpa using hnot

theorem stops_append {a b : Pattern} {p : Char → Bool}
    (hb : ∀ {cs m}, b.match? cs = some m → Stops p m.rest) {cs : List Char} {m : Match}
    (h : (a ++ b).match? cs = some m) : Stops p m.rest := by
  obtain ⟨x, -, y, hy, rfl⟩ := match?_append_eq_some.1 h
  exact hb (m := y) hy

end Pattern

/-! ### Words by the vocabulary -/

/-- Looking at the words of one width only misses no keyword. -/
theorem Keyword.find?_eq_some_iff {text : List Char} {word : Keyword} :
    Keyword.find? text = some word ↔ text = word.spelling.toList := by
  constructor
  · intro h
    unfold Keyword.find? at h
    split at h
    · split at h <;> cases h <;> rfl
    · split at h <;> cases h <;> rfl
    · split at h <;> cases h <;> rfl
    · cases h
  · rintro rfl
    cases word <;> rfl

/-- The words of the table are the spellings of the keywords. -/
theorem mem_keywords_iff {w : String} : w ∈ keywords ↔ ∃ word : Keyword, word.spelling = w := by
  constructor
  · intro h
    obtain ⟨word, -, hspelling⟩ : ∃ word ∈ Keyword.all, word.spelling = w := List.mem_map.1 h
    exact ⟨word, hspelling⟩
  · rintro ⟨word, rfl⟩
    cases word <;> decide

theorem Keyword.find?_eq_none_iff {text : List Char} :
    Keyword.find? text = none ↔ String.ofList text ∉ keywords := by
  rw [mem_keywords_iff, Option.eq_none_iff_forall_ne_some]
  constructor
  · rintro h ⟨word, hspelling⟩
    exact h word (find?_eq_some_iff.2 (by simp [hspelling]))
  · intro h word hword
    exact h ⟨word, by simp [find?_eq_some_iff.1 hword]⟩

/-- The look-up by width and the table of operators agree. -/
theorem isOperator_iff {text : List Char} :
    isOperator text = true ↔ String.ofList text ∈ operators := by
  constructor
  · intro h
    unfold isOperator at h
    split at h
    · split at h
      any_goals decide
      cases h
    · split at h
      any_goals decide
      cases h
    · cases h
  · intro h
    have hall : ∀ op ∈ operators, isOperator op.toList = true := by decide
    simpa using hall _ h

theorem Shape.reads_identifierLike {text after : List Char} (hword : text ∈ Grammar.identifier)
    (hstop : Stops isIdentifierPart after) :
    (Shape.identifierLike.classify text).Reads text after := by
  rw [classify]
  split
  · rename_i word hfind
    exact ⟨Keyword.find?_eq_some_iff.1 hfind, hstop⟩
  · rename_i hfind
    exact ⟨hword, Keyword.find?_eq_none_iff.1 hfind, hstop⟩

theorem Shape.reads_symbolRun {text after : List Char} (hrun : text ∈ plus (letter isSymbol))
    (hstop : Stops isSymbol after) (hless : text ≠ ['<']) (hgreater : text ≠ ['>'])
    (hline : ¬['/', '/'] <+: text) (hblock : ¬['/', '*'] <+: text) :
    (Shape.symbolRun.classify text).Reads text after := by
  rw [classify]
  split
  · rename_i hop
    exact ⟨isOperator_iff.1 hop, hless, hgreater, hstop⟩
  · rename_i hop
    exact .inr ⟨hrun, fun h => hop (isOperator_iff.2 h), hline, hblock, hstop⟩

theorem Shape.reads_bracket {c : Char} (hc : c ∈ ['\x7b', '\x7d', '(', ')', '[', ']'])
    (after : List Char) : (Shape.bracket.classify [c]).Reads [c] after := by
  simp only [List.mem_cons, List.not_mem_nil, or_false] at hc
  rcases hc with rfl | rfl | rfl | rfl | rfl | rfl <;> exact ⟨_, by decide, rfl⟩

theorem Shape.reads_angle {c : Char} (hc : c ∈ ['<', '>']) {after : List Char}
    (hstop : Stops isSymbol after) : (Shape.bracket.classify [c]).Reads [c] after := by
  simp only [List.mem_cons, List.not_mem_nil, or_false] at hc
  rcases hc with rfl | rfl <;> exact ⟨⟨_, by decide, rfl⟩, hstop⟩

/-! ### Words by the patterns -/

section
variable {cs : List Char} {m : Match}

theorem reads_docCommentOpen (h : Pattern.docCommentOpen.match? cs = some m) :
    Category.docComment.Reads m.text m.rest := by
  have hstop := Pattern.stops_append Pattern.stops_notBefore h
  obtain ⟨x, hx, y, hy, rfl⟩ := Pattern.match?_append_eq_some.1 h
  obtain ⟨rest, -, rfl⟩ := Pattern.match?_literal_eq_some.1 hx
  obtain ⟨-, rfl⟩ : _ ∧ ⟨[], rest⟩ = y := by simpa using hy
  exact .inl ⟨rfl, hstop⟩

/-- What looks like the opener of a doc comment opens a block comment only if it closes it too. -/
theorem reads_blockCommentOpen (h : Pattern.blockCommentOpen.match? cs = some m)
    (hdoc : Pattern.docCommentOpen.Misses cs) :
    Category.blockComment.Reads m.text m.rest := by
  obtain ⟨rest, rfl, rfl⟩ := Pattern.match?_literal_eq_some.1 h
  refine .inl ⟨rfl, ?_⟩
  rintro tail rfl
  by_contra hslash
  have hmatch : Pattern.docCommentOpen.match? ('/' :: '*' :: '*' :: tail) =
      some ⟨['/', '*', '*'], tail⟩ := by
    have hhead : tail.head?.any (· == '/') = false := by
      cases hc : tail.head? with
      | none => rfl
      | some c => simpa [hc] using hslash
    simp [Pattern.docCommentOpen, Pattern.literal, hhead, Match.append, Pattern.match?]
  have hnil := hdoc _ hmatch
  simp at hnil

theorem reads_lineComment (h : Pattern.lineComment.match? cs = some m) :
    Category.lineComment.Reads m.text m.rest := by
  have hslash : ∀ c : Char, (c == '/') = true → isLineBreak c = false := by simp [isLineBreak]
  have hplain : ∀ c : Char, (!isLineBreak c) = true → isLineBreak c = false := by simp
  have hbreak : Pattern.lineComment.ReadsOnly fun c => isLineBreak c = false :=
    ⟨⟨hslash, hslash, trivial⟩, hplain⟩
  have hstop := Pattern.stops_append Pattern.stops_run h
  have hall := Pattern.forall_mem_of_match? hbreak h
  obtain ⟨x, hx, y, -, rfl⟩ := Pattern.match?_append_eq_some.1 h
  obtain ⟨rest, -, rfl⟩ := Pattern.match?_literal_eq_some.1 hx
  exact ⟨List.prefix_append _ _, hall, hstop⟩

theorem reads_loneAngle (h : Pattern.loneAngle.match? cs = some m) :
    (Shape.bracket.classify m.text).Reads m.text m.rest := by
  have hstop := Pattern.stops_append Pattern.stops_notBefore h
  obtain ⟨x, hx, y, hy, rfl⟩ := Pattern.match?_append_eq_some.1 h
  obtain ⟨c, rest, -, hc, rfl⟩ := Pattern.match?_oneOf_eq_some.1 hx
  obtain ⟨-, rfl⟩ : _ ∧ ⟨[], rest⟩ = y := by simpa using hy
  exact Shape.reads_angle hc hstop

/-- A run of symbols starts where no comment opens and no angle bracket stands alone. -/
theorem reads_symbolRun (h : Pattern.symbolRun.match? cs = some m)
    (hopen : Pattern.blockCommentOpen.Misses cs) (hline : Pattern.lineComment.Misses cs)
    (hangle : Pattern.loneAngle.Misses cs) :
    (Shape.symbolRun.classify m.text).Reads m.text m.rest := by
  have hstop := Pattern.stops_run1 h
  have hsplit := Pattern.match?_split _ h
  have hsingle : ∀ c ∈ ['<', '>'], m.text ≠ [c] := by
    intro c hc htext
    rw [htext] at hsplit
    have hhead : m.rest.head?.any isSymbol = false := by
      cases hnext : m.rest.head? with
      | none => rfl
      | some d => exact hstop d hnext
    have hmatch : Pattern.loneAngle.match? cs = some ⟨[c], m.rest⟩ :=
      Pattern.match?_append_eq_some.2 ⟨⟨[c], m.rest⟩,
        Pattern.match?_oneOf_eq_some.2 ⟨c, m.rest, hsplit.symm, hc, rfl⟩, ⟨[], m.rest⟩,
        by simp [hhead], rfl⟩
    have hnil := hangle _ hmatch
    simp at hnil
  have hslashes : ¬['/', '/'] <+: m.text := by
    intro hstart
    obtain ⟨rest, rfl⟩ := hstart.trans ⟨m.rest, hsplit⟩
    have hmatch : Pattern.lineComment.match? ('/' :: '/' :: rest) =
        some ⟨'/' :: '/' :: rest.takeWhile (!isLineBreak ·), rest.dropWhile (!isLineBreak ·)⟩ := by
      simp [Pattern.lineComment, Pattern.literal, Pattern.match?, Match.append]
    have hnil := hline _ hmatch
    simp at hnil
  have hopener : ¬['/', '*'] <+: m.text := by
    intro hstart
    obtain ⟨rest, rfl⟩ := hstart.trans ⟨m.rest, hsplit⟩
    have hmatch : Pattern.blockCommentOpen.match? (['/', '*'] ++ rest) = some ⟨['/', '*'], rest⟩ :=
      Pattern.match?_literal_eq_some.2 ⟨rest, rfl, rfl⟩
    have hnil := hopen _ hmatch
    simp at hnil
  exact Shape.reads_symbolRun (Pattern.mem_language_of_match? h) hstop (hsingle '<' (by simp))
    (hsingle '>' (by simp)) hslashes hopener

theorem reads_unterminatedString (h : Pattern.unterminatedString.match? cs = some m) :
    Category.stringInvalid.Reads m.text m.rest := by
  have hbreak : Pattern.unterminatedString.ReadsOnly fun c => isLineBreak c = false := by
    have hquote : ∀ c : Char, (c == '"') = true → isLineBreak c = false := by simp [isLineBreak]
    have hback : ∀ c : Char, (c == '\\') = true → isLineBreak c = false := by simp [isLineBreak]
    have hplain : ∀ c : Char, (c != '\\' && c != '"' && !isLineBreak c) = true →
        isLineBreak c = false := by simp
    have hany : ∀ c : Char, (!isLineBreak c) = true → isLineBreak c = false := by simp
    exact ⟨⟨hquote, hplain, hback, hany⟩, trivial⟩
  have hstop := Pattern.stops_append Pattern.stops_notBefore h
  have hall := Pattern.forall_mem_of_match? hbreak h
  obtain ⟨x, hx, y, -, rfl⟩ := Pattern.match?_append_eq_some.1 h
  obtain ⟨quote, hquote, body, -, rfl⟩ := Pattern.match?_append_eq_some.1 hx
  obtain ⟨rest, -, rfl⟩ := Pattern.match?_char_eq_some.1 hquote
  exact ⟨List.prefix_append _ _, hall, hstop⟩

/-- A single quote is read alone only where no character literal starts. -/
theorem reads_singleQuote (h : Pattern.singleQuote.match? cs = some m)
    (hchar : Pattern.charLiteral.Misses cs)
    (hescape : Pattern.charEscapeLiteral.Misses cs) :
    Category.charInvalid.Reads m.text m.rest := by
  have hsplit := Pattern.match?_split _ h
  obtain ⟨rest, -, rfl⟩ := Pattern.match?_char_eq_some.1 h
  refine ⟨rfl, ?_⟩
  rw [hsplit]
  rintro w (hw | hw)
  · exact Pattern.findsLongest_charLiteral.not_prefix hchar hw (ne_nil_of_mem_quoted hw)
  · exact Pattern.findsLongest_charEscapeLiteral.not_prefix hescape hw (ne_nil_of_mem_quoted hw)

theorem commentBody_of_commentText (h : Pattern.commentText.match? cs = some m) :
    CommentBody m.text m.rest :=
  .run (Pattern.mem_language_of_match? h) (Pattern.stops_run1 h)

theorem commentBody_of_commentClose (h : Pattern.commentClose.match? cs = some m) :
    CommentBody m.text m.rest := by
  obtain ⟨rest, -, rfl⟩ := Pattern.match?_literal_eq_some.1 h
  exact .close rfl

theorem reads_escape (h : Pattern.escape.match? cs = some m) :
    Category.stringEscape.Reads m.text m.rest := by
  refine ⟨Pattern.findsLongest_escape.mem h, ?_⟩
  intro w hw hstart
  rw [Pattern.match?_split _ h] at hstart
  obtain ⟨n, hn, hle⟩ := Pattern.findsLongest_escape.longest hw hstart
  obtain rfl : m = n := by simpa [h] using hn
  exact hle

/-- An escape sequence is invalid where none of the language starts. -/
theorem reads_anyEscape (h : Pattern.anyEscape.match? cs = some m)
    (hescape : Pattern.escape.Misses cs) :
    Category.stringEscapeInvalid.Reads m.text m.rest := by
  have hsplit := Pattern.match?_split _ h
  obtain ⟨x, hx, y, hy, rfl⟩ := Pattern.match?_append_eq_some.1 h
  obtain ⟨rest, -, rfl⟩ := Pattern.match?_char_eq_some.1 hx
  obtain ⟨c, tail, -, hc, rfl⟩ := Pattern.match?_one_eq_some.1 hy
  refine ⟨⟨c, rfl, by simpa using hc⟩, ?_⟩
  rw [hsplit]
  intro w hw
  obtain ⟨d, ds, hne, -⟩ := exists_of_mem_escape hw
  exact Pattern.findsLongest_escape.not_prefix hescape hw (by simp [hne])

end

end Tokenizer
