import Mathlib.Computability.Language
import Tokenizer.Pattern.Code
import Tokenizer.Pattern.Comment
import Tokenizer.Pattern.Literal
import Tokenizer.Pattern.Number
import Tokenizer.Proofs.Matching

/-!
The words of the language as sets of texts, built from classes of characters by union, product and
repetition. What a pattern matches is a word of the set that its parts make up. A pattern may do
more, and find the longest word at the front of a text whenever there is one.
-/

abbrev CharLanguage := Language Char

namespace Tokenizer.Grammar

open CharClass
open scoped Computability

/-- The words of one character of a class. -/
def letter (p : Char → Bool) : CharLanguage := {w | ∃ c, p c = true ∧ w = [c]}

def char (c : Char) : CharLanguage := letter (· == c)

def oneOf (cs : List Char) : CharLanguage := letter (cs.contains ·)

/-- One word or more, end to end. -/
def plus (l : CharLanguage) : CharLanguage := l * l∗

/-- A word or nothing. -/
def maybe (l : CharLanguage) : CharLanguage := l + 1

def between (p : Char → Bool) (lo hi : Nat) : CharLanguage :=
  {w | lo ≤ w.length ∧ w.length ≤ hi ∧ ∀ c ∈ w, p c = true}

/-! ### Words -/

def identifier : CharLanguage := letter isIdentifierStart * (letter isIdentifierPart)∗

def annotationName : CharLanguage := char '@' * (letter isHorizontalSpace)∗ * identifier

def digits (isDigit : Char → Bool) : CharLanguage :=
  plus (letter isDigit) * (plus (char '_') * plus (letter isDigit))∗

def decimal : CharLanguage := digits Char.isDigit

def signed : CharLanguage := maybe (oneOf ['+', '-']) * decimal

def exponentMark : CharLanguage := oneOf ['e', 'E']

def floatMark : CharLanguage := oneOf ['f', 'F', 'd', 'D']

def longMark : CharLanguage := oneOf ['l', 'L']

def scientificFloat : CharLanguage := decimal * exponentMark * maybe signed * maybe floatMark

def decimalFloat : CharLanguage :=
  decimal * char '.' * decimal * maybe (exponentMark * signed) * maybe floatMark

def suffixedFloat : CharLanguage := decimal * floatMark

def hexNumber : CharLanguage := char '0' * oneOf ['x', 'X'] * digits isHexDigit * maybe longMark

def octalNumber : CharLanguage := char '0' * digits isOctalDigit * maybe longMark

def binaryNumber : CharLanguage :=
  char '0' * oneOf ['b', 'B'] * digits isBinaryDigit * maybe longMark

def integer : CharLanguage := decimal * maybe longMark

def escapeBody : CharLanguage :=
  oneOf ['a', 'b', 'f', 'n', 'r', 't', 'v', '\\', '"', '\''] +
    char 'x' * between isHexDigit 1 4 +
    char 'u' * between isHexDigit 4 4 +
    char 'U' * between isHexDigit 8 8

def escape : CharLanguage := char '\\' * escapeBody

def charLiteral : CharLanguage :=
  char '\'' * letter (fun c => c != '\\' && c != '\'' && !isLineBreak c) * char '\''

def charEscapeLiteral : CharLanguage := char '\'' * escape * char '\''

/-! ### Membership -/

theorem mem_letter {p : Char → Bool} {w : List Char} :
    w ∈ letter p ↔ ∃ c, p c = true ∧ w = [c] := Iff.rfl

theorem mem_char {c : Char} {w : List Char} : w ∈ char c ↔ w = [c] := by
  simp [char, mem_letter]

theorem mem_between {p : Char → Bool} {lo hi : Nat} {w : List Char} :
    w ∈ between p lo hi ↔ lo ≤ w.length ∧ w.length ≤ hi ∧ ∀ c ∈ w, p c = true := Iff.rfl

theorem mem_letter_mul {p : Char → Bool} {l : CharLanguage} {w : List Char} :
    w ∈ letter p * l ↔ ∃ c v, p c = true ∧ v ∈ l ∧ w = c :: v := by
  rw [Language.mem_mul]
  constructor
  · rintro ⟨_, ⟨c, hc, rfl⟩, v, hv, rfl⟩
    exact ⟨c, v, hc, hv, rfl⟩
  · rintro ⟨c, v, hc, hv, rfl⟩
    exact ⟨[c], ⟨c, hc, rfl⟩, v, hv, rfl⟩

theorem mem_char_mul {c : Char} {l : CharLanguage} {w : List Char} :
    w ∈ char c * l ↔ ∃ v ∈ l, w = c :: v := by
  simp [char, mem_letter_mul]

/-- Words that open with a given character are not empty. -/
theorem ne_nil_of_mem_quoted {c : Char} {l k : CharLanguage} {w : List Char}
    (h : w ∈ char c * l * k) : w ≠ [] := by
  rw [mul_assoc, mem_char_mul] at h
  obtain ⟨v, -, rfl⟩ := h
  exact List.cons_ne_nil c v

theorem mem_kstar_letter {p : Char → Bool} {w : List Char} :
    w ∈ (letter p)∗ ↔ ∀ c ∈ w, p c = true := by
  constructor
  · rintro ⟨ws, rfl, hws⟩ c hc
    obtain ⟨w, hw, hcw⟩ := List.mem_flatten.1 hc
    obtain ⟨d, hd, rfl⟩ := hws w hw
    obtain rfl : c = d := by simpa using hcw
    exact hd
  · intro h
    refine Language.mem_kstar.2 ⟨w.map fun c => [c], ?_, ?_⟩
    · rw [← List.flatMap_def, List.flatMap_singleton']
    · intro v hv
      obtain ⟨c, hc, rfl⟩ := List.mem_map.1 hv
      exact ⟨c, h c hc, rfl⟩

theorem mem_plus_letter {p : Char → Bool} {w : List Char} :
    w ∈ plus (letter p) ↔ w ≠ [] ∧ ∀ c ∈ w, p c = true := by
  rw [plus, mem_letter_mul]
  constructor
  · rintro ⟨c, v, hc, hv, rfl⟩
    exact ⟨by simp, List.forall_mem_cons.2 ⟨hc, mem_kstar_letter.1 hv⟩⟩
  · rintro ⟨hne, hw⟩
    obtain ⟨c, v, rfl⟩ := List.exists_cons_of_ne_nil hne
    obtain ⟨hc, hv⟩ := List.forall_mem_cons.1 hw
    exact ⟨c, v, hc, mem_kstar_letter.2 hv, rfl⟩

theorem between_succ (p : Char → Bool) (lo hi : Nat) :
    between p (lo + 1) (hi + 1) = letter p * between p lo hi := by
  ext w
  rw [mem_letter_mul, mem_between]
  cases w with
  | nil => simp
  | cons c v =>
    simp only [List.length_cons, List.forall_mem_cons, List.cons.injEq]
    constructor
    · rintro ⟨hlo, hhi, hc, hv⟩
      exact ⟨c, v, hc, ⟨by omega, by omega, hv⟩, rfl, rfl⟩
    · rintro ⟨_, _, hc, ⟨hlo, hhi, hv⟩, rfl, rfl⟩
      exact ⟨by omega, by omega, hc, hv⟩

theorem between_zero_succ (p : Char → Bool) (n : Nat) :
    between p 0 (n + 1) = maybe (letter p * between p 0 n) := by
  ext w
  rw [maybe, ← between_succ, Language.mem_add, Language.mem_one, mem_between, mem_between]
  cases w with
  | nil => simp
  | cons c v => simp

theorem between_zero_zero (p : Char → Bool) : between p 0 0 = 1 := by
  ext w
  rw [mem_between, Language.mem_one]
  cases w with
  | nil => simp
  | cons c v => simp

/-- A backslash, a character, and then hexadecimal digits if anything. -/
theorem exists_of_mem_escape {w : List Char} (h : w ∈ escape) :
    ∃ c ds, w = '\\' :: c :: ds ∧ ∀ d ∈ ds, isHexDigit d = true := by
  obtain ⟨v, hv, rfl⟩ := mem_char_mul.1 h
  rcases hv with ((hv | hv) | hv) | hv
  · obtain ⟨c, -, rfl⟩ := hv
    exact ⟨c, [], rfl, by simp⟩
  all_goals
    obtain ⟨ds, hds, rfl⟩ := mem_char_mul.1 hv
    exact ⟨_, ds, rfl, hds.2.2⟩

end Tokenizer.Grammar

namespace Tokenizer.Pattern

open CharClass Grammar
open scoped Computability

/-- The words that the parts of a pattern make up. What comes after a match is left aside. -/
def language : Pattern → CharLanguage
  | empty | notBefore _ => 1
  | one p _ => letter p
  | run p => (letter p)∗
  | run1 p => plus (letter p)
  | seq a b => a.language * b.language
  | orElse a b => a.language + b.language
  | many unit => unit.language∗

theorem repeated_mem_kstar {unit : List Char → Option Match} {l : CharLanguage}
    (h : ∀ {cs m}, unit cs = some m → m.text ∈ l) (cs : List Char) :
    (repeated unit cs).text ∈ l∗ := by
  fun_induction repeated unit cs with
  | case1 => exact Language.nil_mem_kstar l
  | case2 cs m hm _ ih =>
    have hmul : (m.append (repeated unit m.rest)).text ∈ l * l∗ :=
      Language.append_mem_mul (h hm) ih
    rw [← Language.one_add_self_mul_kstar_eq_kstar]
    exact .inr hmul
  | case3 => exact Language.nil_mem_kstar l

/-- A match is a word of the pattern. -/
theorem mem_language_of_match? {a : Pattern} {cs : List Char} {m : Match}
    (h : a.match? cs = some m) : m.text ∈ a.language := by
  induction a generalizing cs m with
  | empty =>
    obtain rfl : ⟨[], cs⟩ = m := by simpa [match?] using h
    exact Language.nil_mem_one
  | one p stride =>
    obtain ⟨c, rest, rfl, hc, rfl⟩ := match?_one_eq_some.1 h
    exact ⟨c, hc, rfl⟩
  | run p =>
    obtain rfl : ⟨cs.takeWhile p, cs.dropWhile p⟩ = m := by simpa [match?] using h
    exact mem_kstar_letter.2 fun c hc => List.mem_takeWhile_imp hc
  | run1 p =>
    obtain ⟨c, rest, rfl, hc, rfl⟩ := match?_run1_eq_some.1 h
    exact mem_plus_letter.2 ⟨by simp [hc], fun d hd => List.mem_takeWhile_imp hd⟩
  | notBefore p =>
    obtain ⟨-, rfl⟩ : ¬cs.head?.any p = true ∧ ⟨[], cs⟩ = m := by simpa [match?] using h
    exact Language.nil_mem_one
  | seq a b iha ihb =>
    obtain ⟨x, hx, y, hy, rfl⟩ := match?_append_eq_some.1 h
    exact Language.append_mem_mul (iha hx) (ihb hy)
  | orElse a b iha ihb =>
    rcases Option.or_eq_some_iff.1 h with h | ⟨_, h⟩
    · exact .inl (iha h)
    · exact .inr (ihb h)
  | many unit ih =>
    obtain rfl : repeated unit.match? cs = m := by simpa [match?] using h
    exact repeated_mem_kstar ih cs

/-! ### Longest words -/

/-- The pattern matches the longest word of `l` that a text starts with, if it starts with one. -/
structure FindsLongest (a : Pattern) (l : CharLanguage) : Prop where
  mem : ∀ {cs m}, a.match? cs = some m → m.text ∈ l
  longest : ∀ {cs w}, w ∈ l → w <+: cs → ∃ m, a.match? cs = some m ∧ w.length ≤ m.text.length

/-- The pattern finds nothing at the front of the text but perhaps the empty text. -/
def Misses (a : Pattern) (cs : List Char) : Prop := ∀ m, a.match? cs = some m → m.text = []

theorem text_prefix_of_match? {a : Pattern} {cs : List Char} {m : Match} (h : a.match? cs = some m) :
    m.text <+: cs := ⟨m.rest, a.match?_split h⟩

namespace FindsLongest

variable {a b : Pattern} {la lb : CharLanguage}

theorem one (p : Char → Bool) (stride : Stride := .byte) :
    FindsLongest (.one p stride) (letter p) where
  mem := mem_language_of_match?
  longest := by
    rintro cs _ ⟨c, hc, rfl⟩ ⟨rest, rfl⟩
    exact ⟨⟨[c], rest⟩, by simp [hc], Nat.le_refl _⟩

theorem run (p : Char → Bool) : FindsLongest (.run p) (letter p)∗ where
  mem := mem_language_of_match?
  longest := by
    rintro cs w hw ⟨rest, rfl⟩
    have htake : (w ++ rest).takeWhile p = w ++ rest.takeWhile p :=
      List.takeWhile_append_of_pos (mem_kstar_letter.1 hw)
    refine ⟨_, rfl, ?_⟩
    rw [htake, List.length_append]
    exact Nat.le_add_right _ _

theorem run1 (p : Char → Bool) : FindsLongest (.run1 p) (plus (letter p)) where
  mem := mem_language_of_match?
  longest := by
    intro cs w hw hprefix
    obtain ⟨hne, hall⟩ := mem_plus_letter.1 hw
    obtain ⟨m, hm, hle⟩ := (run p).longest (mem_kstar_letter.2 hall) hprefix
    obtain rfl : ⟨cs.takeWhile p, cs.dropWhile p⟩ = m := by simpa [match?] using hm
    obtain ⟨rest, rfl⟩ := hprefix
    obtain ⟨c, v, rfl⟩ := List.exists_cons_of_ne_nil hne
    exact ⟨_, match?_run1_of_pos (hall c List.mem_cons_self) (v ++ rest), hle⟩

/--
One pattern after the other, if a word of the second that is not empty stops the words of the
first.
-/
theorem seq (ha : FindsLongest a la) (hb : FindsLongest b lb)
    (hstop : ∀ u ∈ la, ∀ v ∈ lb, v ≠ [] → ∀ x ∈ la, ∀ rest, u <+: x → x <+: u ++ (v ++ rest) →
      x = u) :
    FindsLongest (a ++ b) (la * lb) where
  mem := by
    intro cs m h
    obtain ⟨x, hx, y, hy, rfl⟩ := match?_append_eq_some.1 h
    exact Language.append_mem_mul (ha.mem hx) (hb.mem hy)
  longest := by
    intro cs w hw hprefix
    obtain ⟨u, hu, v, hv, rfl⟩ := Language.mem_mul.1 hw
    obtain ⟨rest, rfl⟩ := hprefix
    rw [List.append_assoc]
    obtain ⟨x, hx, hle⟩ := ha.longest hu (List.prefix_append u (v ++ rest))
    suffices hsecond : ∃ y, b.match? x.rest = some y ∧ u.length + v.length ≤
        x.text.length + y.text.length by
      obtain ⟨y, hy, hlength⟩ := hsecond
      refine ⟨x.append y, match?_append_eq_some.2 ⟨x, hx, y, hy, rfl⟩, ?_⟩
      simpa only [Match.append, List.length_append] using hlength
    by_cases hne : v = []
    · -- the second pattern finds the empty word at least
      subst hne
      obtain ⟨y, hy, -⟩ := hb.longest hv (List.nil_prefix (l := x.rest))
      exact ⟨y, hy, by simp only [List.length_nil]; omega⟩
    have hux : u <+: x.text :=
      List.prefix_of_prefix_length_le (List.prefix_append _ _) (text_prefix_of_match? hx) hle
    -- the first pattern reads `u` and no more
    have hxu : x.text = u := hstop u hu v hv hne _ (ha.mem hx) rest hux (text_prefix_of_match? hx)
    have hrest : x.rest = v ++ rest := by
      have hsplit := a.match?_split hx
      rw [hxu] at hsplit
      exact List.append_cancel_left hsplit
    obtain ⟨y, hy, hvy⟩ := hb.longest hv (List.prefix_append v rest)
    rw [← hrest] at hy
    exact ⟨y, hy, by rw [hxu]; omega⟩

/-- One character of a class, and then a pattern. -/
theorem letter_seq (p : Char → Bool) (hb : FindsLongest b lb) (stride : Stride := .byte) :
    FindsLongest (.one p stride ++ b) (letter p * lb) := by
  refine (one p stride).seq hb ?_
  rintro _ ⟨c, -, rfl⟩ v - - _ ⟨d, -, rfl⟩ rest h -
  exact (h.eq_of_length rfl).symm

theorem of_append_assoc {c : Pattern} {l : CharLanguage} (h : FindsLongest (a ++ (b ++ c)) l) :
    FindsLongest (a ++ b ++ c) l := by
  refine ⟨?_, ?_⟩
  · intro cs m hm
    rw [match?_append_assoc] at hm
    exact h.mem hm
  · intro cs w hw hprefix
    rw [match?_append_assoc]
    exact h.longest hw hprefix

theorem optional (ha : FindsLongest a la) : FindsLongest (.optional a) (maybe la) where
  mem := by
    intro cs m h
    rcases Option.or_eq_some_iff.1 h with h | ⟨-, h⟩
    · exact .inl (ha.mem h)
    · exact .inr (mem_language_of_match? h)
  longest := by
    intro cs w hw hprefix
    have hmatch : (Pattern.optional a).match? cs = (a.match? cs).or (some ⟨[], cs⟩) := rfl
    rw [hmatch]
    rcases hw with hw | rfl
    · obtain ⟨m, hm, hle⟩ := ha.longest hw hprefix
      exact ⟨m, by rw [hm]; rfl, hle⟩
    · cases a.match? cs with
      | none => exact ⟨_, rfl, Nat.zero_le _⟩
      | some m => exact ⟨m, rfl, Nat.zero_le _⟩

/-- A choice between words that start in a class and words that do not. -/
theorem orElse (ha : FindsLongest a la) (hb : FindsLongest b lb) (p : Char → Bool)
    (hpa : ∀ u ∈ la, u.head?.any p = true) (hpb : ∀ v ∈ lb, v.head?.any p = false) :
    FindsLongest (a.orElse b) (la + lb) where
  mem := by
    intro cs m h
    rcases Option.or_eq_some_iff.1 h with h | ⟨-, h⟩
    · exact .inl (ha.mem h)
    · exact .inr (hb.mem h)
  longest := by
    intro cs w hw hprefix
    have hmatch : (a.orElse b).match? cs = (a.match? cs).or (b.match? cs) := rfl
    rw [hmatch]
    rcases hw with hw | hw
    · obtain ⟨m, hm, hle⟩ := ha.longest hw hprefix
      exact ⟨m, by rw [hm]; rfl, hle⟩
    · cases hm : a.match? cs with
      | none =>
        obtain ⟨m, hm, hle⟩ := hb.longest hw hprefix
        exact ⟨m, by rw [hm]; rfl, hle⟩
      | some m =>
        refine ⟨m, rfl, ?_⟩
        have hhead := hpa _ (ha.mem hm)
        have hstart := text_prefix_of_match? hm
        have hw := hpb w hw
        cases w with
        | nil => exact Nat.zero_le _
        | cons d w =>
          obtain ⟨rest, rfl⟩ := hprefix
          cases htext : m.text with
          | nil => simp [htext] at hhead
          | cons c text =>
            rw [htext] at hhead hstart
            obtain ⟨rfl, -⟩ := List.cons_prefix_cons.1 hstart
            simp_all

theorem exactly (p : Char → Bool) (n : Nat) :
    FindsLongest (.exactly p n) (between p n n) := by
  induction n with
  | zero =>
    rw [between_zero_zero]
    refine ⟨mem_language_of_match?, ?_⟩
    rintro cs _ rfl -
    exact ⟨_, rfl, Nat.zero_le _⟩
  | succ n ih =>
    rw [between_succ]
    exact letter_seq p ih

theorem upTo (p : Char → Bool) (n : Nat) : FindsLongest (.upTo p n) (between p 0 n) := by
  induction n with
  | zero => exact exactly p 0
  | succ n ih =>
    rw [between_zero_succ]
    exact (letter_seq p ih).optional

/-- Where only empty matches are found, the text starts with no word but the empty one. -/
theorem not_prefix (ha : FindsLongest a la) {cs : List Char} (hmiss : a.Misses cs) {w : List Char}
    (hw : w ∈ la) (hne : w ≠ []) : ¬w <+: cs := by
  intro hstart
  obtain ⟨m, hm, hle⟩ := ha.longest hw hstart
  rw [hmiss m hm, List.length_nil, Nat.le_zero, List.length_eq_zero_iff] at hle
  exact hne hle

end FindsLongest

theorem head?_any_of_mem_char_mul {c : Char} {l : CharLanguage} {p : Char → Bool} {w : List Char}
    (h : w ∈ Grammar.char c * l) : w.head?.any p = p c := by
  obtain ⟨v, -, rfl⟩ := mem_char_mul.1 h
  rfl

theorem head?_any_of_mem_oneOf {cs : List Char} {p : Char → Bool} (hcs : cs.all p = true)
    {w : List Char} (h : w ∈ Grammar.oneOf cs) : w.head?.any p = true := by
  obtain ⟨c, hc, rfl⟩ := h
  exact List.all_eq_true.1 hcs c (by simpa using hc)

/-- Of the escape sequences at the front of a text, the longest is found. -/
theorem findsLongest_escape : FindsLongest escape Grammar.escape := by
  have hsimple := FindsLongest.one (['a', 'b', 'f', 'n', 'r', 't', 'v', '\\', '"', '\''].contains ·)
  have hshort : FindsLongest (char 'x' ++ one isHexDigit ++ upTo isHexDigit 3)
      (Grammar.char 'x' * between isHexDigit 1 4) := by
    have htail := (FindsLongest.upTo isHexDigit 3).letter_seq isHexDigit
    rw [← between_succ] at htail
    exact (htail.letter_seq _).of_append_assoc
  have hmiddle : FindsLongest (char 'u' ++ exactly isHexDigit 4)
      (Grammar.char 'u' * between isHexDigit 4 4) :=
    (FindsLongest.exactly isHexDigit 4).letter_seq _
  have hlong : FindsLongest (char 'U' ++ exactly isHexDigit 8)
      (Grammar.char 'U' * between isHexDigit 8 8) :=
    (FindsLongest.exactly isHexDigit 8).letter_seq _
  -- the first character tells the kinds of escape sequences apart
  have hbody : FindsLongest escapeBody Grammar.escapeBody := by
    refine ((hsimple.orElse hshort (· != 'x') ?_ ?_).orElse hmiddle (· != 'u') ?_ ?_).orElse hlong
      (· != 'U') ?_ ?_
    · exact fun w hw => head?_any_of_mem_oneOf (by decide) hw
    · exact fun w hw => head?_any_of_mem_char_mul hw
    · rintro w (hw | hw)
      · exact head?_any_of_mem_oneOf (by decide) hw
      · exact head?_any_of_mem_char_mul hw
    · exact fun w hw => head?_any_of_mem_char_mul hw
    · rintro w ((hw | hw) | hw)
      · exact head?_any_of_mem_oneOf (by decide) hw
      · exact head?_any_of_mem_char_mul hw
      · exact head?_any_of_mem_char_mul hw
    · exact fun w hw => head?_any_of_mem_char_mul hw
  exact hbody.letter_seq _

theorem findsLongest_charLiteral : FindsLongest charLiteral Grammar.charLiteral := by
  have hclose : FindsLongest singleQuote (Grammar.char '\'') := .one _
  have hinner := hclose.letter_seq (fun c => c != '\\' && c != '\'' && !isLineBreak c) .whole
  have hseq := hinner.letter_seq (· == '\'')
  rw [← mul_assoc] at hseq
  exact hseq.of_append_assoc

theorem findsLongest_charEscapeLiteral :
    FindsLongest charEscapeLiteral Grammar.charEscapeLiteral := by
  have hclose : FindsLongest singleQuote (Grammar.char '\'') := .one _
  have hseq : FindsLongest (escape ++ singleQuote) (Grammar.escape * Grammar.char '\'') := by
    refine findsLongest_escape.seq hclose ?_
    -- a longer escape sequence would have the closing quote as one of its digits
    intro u hu v hv _ x hx rest hux hxr
    obtain rfl := mem_char.1 hv
    obtain ⟨c, ds, rfl, -⟩ := exists_of_mem_escape hu
    obtain ⟨more, rfl⟩ := hux
    cases more with
    | nil => simp
    | cons d more =>
      obtain ⟨_, _, htext, hhex⟩ := exists_of_mem_escape hx
      obtain ⟨rfl, rfl⟩ : _ ∧ _ := by simpa using htext
      obtain ⟨rfl, -⟩ : d = '\'' ∧ more <+: rest := by simpa using hxr
      exact absurd (hhex '\'' (by simp)) (by decide)
  have hwhole := hseq.letter_seq (· == '\'')
  rw [← mul_assoc] at hwhole
  exact hwhole.of_append_assoc

/-- Where a word of an annotation starts, the pattern of annotations matches. -/
theorem findsLongest_annotationName :
    annotationName.FindsLongest Grammar.annotationName := by
  have hword : identifier.FindsLongest Grammar.identifier :=
    (FindsLongest.run _).letter_seq _
  have hseq := (FindsLongest.run isHorizontalSpace).seq hword ?_
  · have hwhole := hseq.letter_seq (· == '@')
    rw [← mul_assoc] at hwhole
    exact hwhole.of_append_assoc
  · -- an identifier does not start with a space
    intro u hu v hv _ x hx rest hux hxr
    obtain ⟨c, tail, hc, -, rfl⟩ := mem_letter_mul.1 hv
    obtain ⟨more, rfl⟩ := hux
    cases more with
    | nil => simp
    | cons d more =>
      obtain ⟨rfl, -⟩ : d = c ∧ _ := by simpa using hxr
      have hspace := mem_kstar_letter.1 hx d (by simp)
      obtain rfl | rfl : d = ' ' ∨ d = '\t' := by simpa [isHorizontalSpace] using hspace
      all_goals exact absurd hc (by decide)

end Tokenizer.Pattern
