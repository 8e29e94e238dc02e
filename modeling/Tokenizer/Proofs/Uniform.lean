import Tokenizer.Proofs.Lookahead
import Tokenizer.Rule.Table

/-!
Uniform classes. The language is written in ASCII: no class of its rules tells two characters
beyond ASCII apart. So its patterns can be read from bytes: wherever a step takes a single byte,
the class lies within ASCII, and whatever is repeated uses up text.
-/
namespace Tokenizer

open CharClass

/-- Beyond ASCII the class holds every character or none. -/
def Uniform (p : Char → Bool) : Prop :=
  ∀ c d : Char, 128 ≤ c.toNat → 128 ≤ d.toNat → p c = p d

theorem uniform_of_ascii {p : Char → Bool} (h : ∀ c : Char, 128 ≤ c.toNat → p c = false) :
    Uniform p := by
  intro c d hc hd
  rw [h c hc, h d hd]

/-- No character beyond ASCII is in the class. -/
def Ascii (p : Char → Bool) : Prop := ∀ c, p c = true → c.toNat < 128

theorem Ascii.uniform {p : Char → Bool} (hp : Ascii p) : Uniform p := by
  apply uniform_of_ascii
  intro c hc
  rw [Bool.eq_false_iff]
  intro hpc
  exact absurd (hp c hpc) (Nat.not_lt.2 hc)

theorem Uniform.ascii {p : Char → Bool} (hp : Uniform p) (h : p '\u0080' = false) : Ascii p := by
  intro c hc
  by_contra hle
  rw [hp c '\u0080' (Nat.not_lt.1 hle) (by decide), h] at hc
  simp at hc

theorem Uniform.not {p : Char → Bool} (hp : Uniform p) : Uniform fun c => !p c := by
  intro c d hc hd
  simp only [hp c d hc hd]

theorem Uniform.and {p q : Char → Bool} (hp : Uniform p) (hq : Uniform q) :
    Uniform fun c => p c && q c := by
  intro c d hc hd
  simp only [hp c d hc hd, hq c d hc hd]

theorem Uniform.or {p q : Char → Bool} (hp : Uniform p) (hq : Uniform q) :
    Uniform fun c => p c || q c := by
  intro c d hc hd
  simp only [hp c d hc hd, hq c d hc hd]

theorem uniform_contains {cs : List Char} (h : ∀ c ∈ cs, c.toNat < 128) :
    Uniform (cs.contains ·) := by
  apply uniform_of_ascii
  intro c hc
  have hnot : c ∉ cs := fun hmem => absurd (h c hmem) (Nat.not_lt.2 hc)
  simpa using hnot

theorem uniform_beq {d : Char} (hd : d.toNat < 128) : Uniform (· == d) := by
  apply uniform_of_ascii
  intro c hc
  have hne : c ≠ d := by
    rintro rfl
    omega
  simpa using hne

theorem uniform_bne {d : Char} (hd : d.toNat < 128) : Uniform (· != d) := (uniform_beq hd).not

theorem uniform_range {lo hi : Char} (h : hi.toNat < 128) :
    Uniform fun c => decide (lo ≤ c) && decide (c ≤ hi) := by
  apply uniform_of_ascii
  intro c hc
  have hnot : ¬c ≤ hi := by
    rw [Char.le_def, UInt32.le_iff_toNat_le]
    change ¬c.toNat ≤ hi.toNat
    omega
  simp [hnot]

theorem uniform_isDigit : Uniform Char.isDigit := uniform_range (by decide : '9'.toNat < 128)

theorem uniform_isAlpha : Uniform Char.isAlpha := by
  have hupper : Uniform Char.isUpper := by
    have heq : Char.isUpper = fun c => decide ('A' ≤ c) && decide (c ≤ 'Z') := by
      funext c
      exact Bool.decide_and ..
    rw [heq]
    exact uniform_range (by decide)
  have hlower : Uniform Char.isLower := uniform_range (by decide : 'z'.toNat < 128)
  exact hupper.or hlower

theorem uniform_isIdentifierStart : Uniform isIdentifierStart :=
  (uniform_isAlpha.or (uniform_beq (by decide))).or (uniform_beq (by decide))

theorem uniform_isIdentifierPart : Uniform isIdentifierPart :=
  ((uniform_isAlpha.or uniform_isDigit).or (uniform_beq (by decide))).or (uniform_beq (by decide))

theorem uniform_isSymbol : Uniform isSymbol := uniform_contains (by simp)

theorem uniform_isHexDigit : Uniform isHexDigit :=
  (uniform_isDigit.or (uniform_range (by decide))).or (uniform_range (by decide))

theorem uniform_isOctalDigit : Uniform isOctalDigit := uniform_range (by decide)

theorem uniform_isBinaryDigit : Uniform isBinaryDigit :=
  (uniform_beq (by decide)).or (uniform_beq (by decide))

theorem uniform_isLineBreak : Uniform isLineBreak :=
  (uniform_beq (by decide)).or (uniform_beq (by decide))

theorem uniform_isHorizontalSpace : Uniform isHorizontalSpace :=
  (uniform_beq (by decide)).or (uniform_beq (by decide))

theorem uniform_isSpace : Uniform isSpace := uniform_isHorizontalSpace.or uniform_isLineBreak

theorem uniform_bne_and_bne {c d : Char} (hc : c.toNat < 128) (hd : d.toNat < 128) :
    Uniform fun x => x != c && x != d := (uniform_bne hc).and (uniform_bne hd)

/-! ### The classes of a pattern -/

namespace Pattern

def EveryClass (q : (Char → Bool) → Prop) : Pattern → Prop
  | empty => True
  | one p _ | run p | run1 p | notBefore p => q p
  | seq a b | orElse a b => a.EveryClass q ∧ b.EveryClass q
  | many unit => unit.EveryClass q

theorem everyClass_append {q : (Char → Bool) → Prop} (a b : Pattern) :
    (a ++ b).EveryClass q ↔ a.EveryClass q ∧ b.EveryClass q := Iff.rfl

theorem everyClass_optional {q : (Char → Bool) → Prop} (a : Pattern) :
    (optional a).EveryClass q ↔ a.EveryClass q := and_iff_left trivial

theorem uniform_char {c : Char} (h : c.toNat < 128) : (char c).EveryClass Uniform :=
  uniform_beq h

theorem uniform_oneOf {cs : List Char} (h : ∀ c ∈ cs, c.toNat < 128) :
    (oneOf cs).EveryClass Uniform :=
  uniform_contains h

theorem uniform_literal {cs : List Char} (h : ∀ c ∈ cs, c.toNat < 128) :
    (literal cs).EveryClass Uniform := by
  induction cs with
  | nil => trivial
  | cons c cs ih =>
    obtain ⟨hc, hcs⟩ := List.forall_mem_cons.1 h
    exact ⟨uniform_char hc, ih hcs⟩

theorem uniform_exactly {p : Char → Bool} (hp : Uniform p) (n : Nat) :
    (exactly p n).EveryClass Uniform := by
  induction n with
  | zero => trivial
  | succ n ih => exact ⟨hp, ih⟩

theorem uniform_upTo {p : Char → Bool} (hp : Uniform p) (n : Nat) :
    (upTo p n).EveryClass Uniform := by
  induction n with
  | zero => trivial
  | succ n ih => exact ⟨⟨hp, ih⟩, trivial⟩

theorem uniform_digits {p : Char → Bool} (hp : Uniform p) : (digits p).EveryClass Uniform := by
  have hmark : Uniform (· == '_') := uniform_beq (by decide)
  exact ⟨hp, hmark, hp⟩

theorem uniform_escape : escape.EveryClass Uniform := by
  simp [escape, escapeBody, backslash, EveryClass, everyClass_append, uniform_oneOf, uniform_char,
    uniform_exactly, uniform_upTo, uniform_isHexDigit]

theorem uniform_whitespaceRules : ∀ rule ∈ whitespaceRules, rule.pattern.EveryClass Uniform := by
  have hslash : Uniform (· == '/') := uniform_beq (by decide)
  simp [whitespaceRules, whitespace, docCommentOpen, blockCommentOpen, lineComment, EveryClass,
    everyClass_append, uniform_literal, uniform_isSpace, uniform_isLineBreak.not,
    hslash]

theorem uniform_numberRules : ∀ rule ∈ numberRules, rule.pattern.EveryClass Uniform := by
  simp [numberRules, scientificFloat, decimalFloat, hexNumber, octalNumber, binaryNumber,
    suffixedFloat, integer, decimalDigits, signedDigits, exponentMark, floatMark, longMark,
    everyClass_append, everyClass_optional, uniform_digits, uniform_char, uniform_oneOf,
    uniform_isDigit, uniform_isHexDigit, uniform_isOctalDigit, uniform_isBinaryDigit]

theorem uniform_quoteRules : ∀ rule ∈ quoteRules, rule.pattern.EveryClass Uniform := by
  have hbreak := uniform_isLineBreak.not
  have hstring : Uniform fun c => c != '\\' && c != '"' && !isLineBreak c :=
    (uniform_bne_and_bne (by decide) (by decide)).and hbreak
  have hchar : Uniform fun c => c != '\\' && c != '\'' && !isLineBreak c :=
    (uniform_bne_and_bne (by decide) (by decide)).and hbreak
  simp [quoteRules, unterminatedString, doubleQuote, charLiteral, charEscapeLiteral, singleQuote,
    stringLineText, anyEscape, backslash, EveryClass, everyClass_append,
    uniform_escape, uniform_char, hbreak, hstring, hchar]

/-- No rule tells characters beyond ASCII apart. -/
theorem uniform_rules (mode : Mode) : ∀ rule ∈ mode.rules, rule.pattern.EveryClass Uniform := by
  cases mode with
  | root =>
    simp only [Mode.rules, rootRules, List.forall_mem_append]
    refine ⟨⟨⟨⟨⟨?_, uniform_whitespaceRules⟩, ?_⟩, uniform_numberRules⟩, ?_⟩,
      uniform_quoteRules⟩ <;>
      simp [identifier, bracket, loneAngle, symbolRun, annotationName, punctuation, EveryClass,
        everyClass_append, uniform_oneOf, uniform_char,
        uniform_isIdentifierStart, uniform_isIdentifierPart, uniform_isSymbol,
        uniform_isHorizontalSpace]
  | whitespace => exact uniform_whitespaceRules
  | inside region =>
    have hcomment : Uniform fun c => c != '/' && c != '*' :=
      uniform_bne_and_bne (by decide) (by decide)
    have hstring : Uniform fun c => c != '\\' && c != '"' :=
      uniform_bne_and_bne (by decide) (by decide)
    cases region <;>
      simp [Mode.rules, blockCommentRules, docCommentRules, stringRules, commentText, commentClose,
        commentSymbol, blockCommentOpen, stringText, anyEscape, doubleQuote, backslash, EveryClass,
        everyClass_append, uniform_literal, uniform_oneOf, uniform_char, uniform_escape,
        uniform_isLineBreak.not, hcomment, hstring]

/-! ### Steps in bytes -/

/--
The pattern can be read from bytes: a step of one byte takes characters of ASCII only, no class
tells characters beyond ASCII apart, and a unit that is repeated cannot be empty.
-/
def Bytewise : Pattern → Prop
  | empty => True
  | one p .byte => Ascii p
  | one p .whole | run p | run1 p | notBefore p => Uniform p
  | seq a b | orElse a b => a.Bytewise ∧ b.Bytewise
  | many unit => unit.Bytewise ∧ unit.nullable = false

theorem bytewise_one {p : Char → Bool} {stride : Stride} :
    (one p stride).Bytewise ↔ Uniform p ∧ (stride = .byte → Ascii p) := by
  cases stride with
  | byte => exact ⟨fun h => ⟨h.uniform, fun _ => h⟩, fun h => h.2 rfl⟩
  | whole => exact ⟨fun h => ⟨h, by simp⟩, fun h => h.1⟩

/-- What is left to check of a pattern whose classes are uniform. -/
def stepsBytewise : Pattern → Bool
  | empty | one _ .whole | run _ | run1 _ | notBefore _ => true
  | one p .byte => !p '\u0080'
  | seq a b | orElse a b => a.stepsBytewise && b.stepsBytewise
  | many unit => unit.stepsBytewise && !unit.nullable

theorem bytewise_of_uniform {a : Pattern} (hu : a.EveryClass Uniform)
    (h : a.stepsBytewise = true) : a.Bytewise := by
  induction a with
  | empty => trivial
  | one p stride =>
    cases stride with
    | byte => exact hu.ascii (by simpa [stepsBytewise] using h)
    | whole => exact hu
  | run p | run1 p | notBefore p => exact hu
  | seq a b iha ihb | orElse a b iha ihb =>
    obtain ⟨ha, hb⟩ : a.stepsBytewise = true ∧ b.stepsBytewise = true := by
      simpa [stepsBytewise] using h
    exact ⟨iha hu.1 ha, ihb hu.2 hb⟩
  | many unit ih =>
    obtain ⟨hunit, hnullable⟩ : unit.stepsBytewise = true ∧ unit.nullable = false := by
      simpa [stepsBytewise] using h
    exact ⟨ih hu hunit, hnullable⟩

/-- Every rule can be read from bytes. -/
theorem bytewise_rules (mode : Mode) : ∀ rule ∈ mode.rules, rule.pattern.Bytewise := by
  -- one character stands for all beyond ASCII, so that the rules can be gone through
  have hsteps : ∀ mode ∈ Mode.all, ∀ rule ∈ mode.rules, rule.pattern.stepsBytewise = true := by
    decide +kernel
  intro rule hmem
  exact bytewise_of_uniform (uniform_rules mode rule hmem) (hsteps mode mode.mem_all rule hmem)

end Pattern
end Tokenizer
