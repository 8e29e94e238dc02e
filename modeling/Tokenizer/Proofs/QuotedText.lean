import Mathlib.Data.List.Basic
import Tokenizer.Span
import Tokenizer.Text.Quoted

/-!
Reading back what listings write: numbers, spans and quoted texts. A reader takes what it knows from
the start of a text and gives its value and the text that follows.
-/
namespace Tokenizer.Text

/-! ### Numerals -/

/-- The value of a digit, where the letters from `a` to `f` go on after `9`. -/
def digitValue (c : Char) : Nat :=
  if c.isDigit then c.toNat - '0'.toNat
  else if 'a' ≤ c ∧ c ≤ 'f' then c.toNat - 'a'.toNat + 10
  else 16

def isDigitOf (base : Nat) (c : Char) : Bool := decide (digitValue c < base)

def numeralValue (base : Nat) (digits : List Char) : Nat :=
  digits.foldl (fun n c => base * n + digitValue c) 0

def readNumeral? (base : Nat) (cs : List Char) : Option (Nat × List Char) :=
  if cs.head?.any (isDigitOf base) then
    some (numeralValue base (cs.takeWhile (isDigitOf base)), cs.dropWhile (isDigitOf base))
  else
    none

theorem digitValue_digitChar : ∀ d < 16, digitValue d.digitChar = d := by decide

theorem numeralValue_append (base : Nat) (digits : List Char) (c : Char) :
    numeralValue base (digits ++ [c]) = base * numeralValue base digits + digitValue c := by
  simp [numeralValue]

section
variable {base : Nat} (hlo : 1 < base) (hhi : base ≤ 16)
include hlo hhi

theorem forall_isDigitOf_toDigits (n : Nat) :
    ∀ c ∈ Nat.toDigits base n, isDigitOf base c = true := by
  have hdigit : ∀ d < base, isDigitOf base d.digitChar = true := by
    intro d hd
    simp only [isDigitOf, digitValue_digitChar d (by omega), hd, decide_true]
  induction n using Nat.strongRecOn with
  | ind n ih =>
    rw [Nat.toDigits_eq_if hlo]
    split
    next hlt => simpa using hdigit n hlt
    next hle =>
      have hdiv : n / base < n := Nat.div_lt_self (by omega) hlo
      have hmod : n % base < base := Nat.mod_lt n (by omega)
      intro c hc
      rcases List.mem_append.1 hc with hc | hc
      · exact ih _ hdiv c hc
      · rw [List.mem_singleton.1 hc]
        exact hdigit _ hmod

theorem newline_not_mem_toDigits (n : Nat) : '\n' ∉ Nat.toDigits base n := by
  intro hmem
  have hdigit := forall_isDigitOf_toDigits hlo hhi n _ hmem
  have hvalue : digitValue '\n' = 16 := by decide
  simp only [isDigitOf, hvalue, decide_eq_true_eq] at hdigit
  omega

theorem numeralValue_toDigits (n : Nat) : numeralValue base (Nat.toDigits base n) = n := by
  induction n using Nat.strongRecOn with
  | ind n ih =>
    rw [Nat.toDigits_eq_if hlo]
    split
    next hlt => simp [numeralValue, digitValue_digitChar n (by omega)]
    next hle =>
      have hdiv : n / base < n := Nat.div_lt_self (by omega) hlo
      have hmod : n % base < base := Nat.mod_lt n (by omega)
      rw [numeralValue_append, ih _ hdiv, digitValue_digitChar _ (by omega), Nat.div_add_mod]

/-- A number that no further digit follows is read back. -/
theorem readNumeral?_toDigits (n : Nat) {rest : List Char}
    (hrest : rest.head?.any (isDigitOf base) = false) :
    readNumeral? base (Nat.toDigits base n ++ rest) = some (n, rest) := by
  have hdigits := forall_isDigitOf_toDigits hlo hhi n
  have hrest' : rest.takeWhile (isDigitOf base) = [] ∧ rest.dropWhile (isDigitOf base) = rest := by
    cases rest with
    | nil => simp
    | cons c cs =>
      have hc : isDigitOf base c = false := hrest
      simp [hc]
  have hhead : (Nat.toDigits base n ++ rest).head?.any (isDigitOf base) = true := by
    cases hcs : Nat.toDigits base n with
    | nil => exact absurd hcs Nat.toDigits_ne_nil
    | cons c cs => simpa using hdigits c (by simp [hcs])
  rw [readNumeral?, if_pos hhead, List.takeWhile_append_of_pos hdigits,
    List.dropWhile_append_of_pos hdigits, hrest'.1, hrest'.2, List.append_nil,
    numeralValue_toDigits hlo hhi]

end

/-! ### Quoted text -/

/-- The character that a backslash and the given character stand for. -/
def namedChar? : Char → Option Char
  | '"' => some '"'
  | '\\' => some '\\'
  | 'n' => some '\n'
  | 'r' => some '\r'
  | 't' => some '\t'
  | '0' => some '\x00'
  | _ => none

def unquoteChar? : List Char → Option (Char × List Char)
  | '\\' :: 'u' :: '\x7b' :: cs => do
    let (n, cs) ← readNumeral? 16 cs
    let cs ← cs.dropPrefix? ['\x7d']
    return (Char.ofNat n, cs)
  | '\\' :: c :: cs => (namedChar? c).map fun d => (d, cs)
  | ['\\'] | [] => none
  | c :: cs => some (c, cs)

def unquoteChars? (cs : List Char) : Option (List Char × List Char) :=
  if cs.head? = some '"' then
    some ([], cs.tail)
  else
    match unquoteChar? cs with
    | none => none
    | some (c, rest) =>
      if rest.length < cs.length then
        (unquoteChars? rest).map fun found => (c :: found.1, found.2)
      else
        none
termination_by cs.length

def unquote? (cs : List Char) : Option (List Char × List Char) :=
  (cs.dropPrefix? ['"']).bind unquoteChars?

theorem dropPrefix?_append (cs rest : List Char) : (cs ++ rest).dropPrefix? cs = some rest :=
  List.dropPrefix?_append_of_beq rest (beq_self_eq_true cs)

/-- A character is written by a name, by its code point, or as it is. -/
theorem quotedChar_cases (c : Char) :
    (∃ d, namedChar? d = some c ∧ quotedChar c = ['\\', d]) ∨
    quotedChar c = codePoint c ∨
    (c ∉ ['"', '\\', '\n'] ∧ quotedChar c = [c]) := by
  by_cases hnamed : c ∈ ['"', '\\', '\n', '\r', '\t', '\x00']
  · left
    simp only [List.mem_cons, List.not_mem_nil, or_false] at hnamed
    rcases hnamed with rfl | rfl | rfl | rfl | rfl | rfl
    · exact ⟨'"', rfl, rfl⟩
    · exact ⟨'\\', rfl, rfl⟩
    · exact ⟨'n', rfl, rfl⟩
    · exact ⟨'r', rfl, rfl⟩
    · exact ⟨'t', rfl, rfl⟩
    · exact ⟨'0', rfl, rfl⟩
  · right
    simp only [List.mem_cons, List.not_mem_nil, or_false, not_or] at hnamed
    by_cases hshown : isCombining c || !isPrintable c
    · left
      simp [quotedChar, hnamed, hshown]
    · right
      simp [quotedChar, hnamed, hshown]

theorem newline_not_mem_codePoint (c : Char) : '\n' ∉ codePoint c := by
  have hdigits := newline_not_mem_toDigits (by decide : 1 < 16) (by decide) c.toNat
  simp [codePoint, hdigits]

/-- A quoted text stays on one line. -/
theorem newline_not_mem_quoted (cs : List Char) : '\n' ∉ quoted cs := by
  have hchar : ∀ c, '\n' ∉ quotedChar c := by
    intro c
    rcases quotedChar_cases c with ⟨d, hnamed, h⟩ | h | ⟨hplain, h⟩
    · rw [h]
      intro hmem
      obtain rfl : '\n' = d := by simpa using hmem
      simp [namedChar?] at hnamed
    · rw [h]
      exact newline_not_mem_codePoint c
    · rw [h]
      intro hmem
      obtain rfl : '\n' = c := by simpa using hmem
      simp at hplain
  simp [quoted, hchar]

theorem unquoteChar?_codePoint (c : Char) (rest : List Char) :
    unquoteChar? (codePoint c ++ rest) = some (c, rest) := by
  have hread : readNumeral? 16 (Nat.toDigits 16 c.toNat ++ ('\x7d' :: rest)) =
      some (c.toNat, '\x7d' :: rest) :=
    readNumeral?_toDigits (by decide) (by decide) c.toNat rfl
  have hbrace : ('\x7d' :: rest).dropPrefix? ['\x7d'] = some rest :=
    dropPrefix?_append ['\x7d'] rest
  simp only [codePoint, List.append_assoc, List.cons_append, List.nil_append, unquoteChar?, hread,
    Option.bind_eq_bind, Option.bind_some]
  rw [hbrace, Option.bind_some, Char.ofNat_toNat]
  rfl

theorem unquoteChar?_quotedChar (c : Char) (rest : List Char) :
    unquoteChar? (quotedChar c ++ rest) = some (c, rest) := by
  rcases quotedChar_cases c with ⟨d, hnamed, h⟩ | h | ⟨hplain, h⟩
  · have hu : d ≠ 'u' := by
      rintro rfl
      simp [namedChar?] at hnamed
    simp [h, unquoteChar?, hu, hnamed]
  · rw [h, unquoteChar?_codePoint]
  · have hback : c ≠ '\\' := by
      rintro rfl
      simp at hplain
    simp [h, unquoteChar?, hback]

/-- No character is written with a quote in front. -/
theorem exists_quotedChar_eq_cons (c : Char) : ∃ d ds, quotedChar c = d :: ds ∧ d ≠ '"' := by
  rcases quotedChar_cases c with ⟨d, -, h⟩ | h | ⟨hplain, h⟩
  · exact ⟨'\\', [d], h, by decide⟩
  · exact ⟨'\\', _, h, by decide⟩
  · refine ⟨c, [], h, ?_⟩
    rintro rfl
    simp at hplain

theorem unquoteChars?_flatMap_quotedChar (cs rest : List Char) :
    unquoteChars? (cs.flatMap quotedChar ++ '"' :: rest) = some (cs, rest) := by
  induction cs with
  | nil =>
    rw [unquoteChars?]
    rfl
  | cons c cs ih =>
    obtain ⟨d, ds, hquoted, hd⟩ := exists_quotedChar_eq_cons c
    have hread := unquoteChar?_quotedChar c (cs.flatMap quotedChar ++ '"' :: rest)
    rw [List.flatMap_cons, List.append_assoc, unquoteChars?, hread, hquoted]
    have hlt : (cs.flatMap quotedChar ++ '"' :: rest).length <
        (d :: ds ++ (cs.flatMap quotedChar ++ '"' :: rest)).length := by
      simp only [List.length_append, List.length_cons]
      omega
    simp only [List.cons_append, List.head?_cons, Option.some.injEq, hd, ↓reduceIte] at hlt ⊢
    rw [if_pos hlt, ih]
    rfl

/-- A quoted text is read back, whatever follows it. -/
theorem unquote?_quoted (cs rest : List Char) : unquote? (quoted cs ++ rest) = some (cs, rest) := by
  have hopen := dropPrefix?_append ['"'] (cs.flatMap quotedChar ++ '"' :: rest)
  have hquoted : quoted cs ++ rest = ['"'] ++ (cs.flatMap quotedChar ++ '"' :: rest) := by
    simp [quoted]
  rw [unquote?, hquoted, hopen, Option.bind_some, unquoteChars?_flatMap_quotedChar]

end Tokenizer.Text

namespace Tokenizer.Span

def read? (cs : List Char) : Option (Span × List Char) := do
  let (start, cs) ← Text.readNumeral? 10 cs
  let cs ← cs.dropPrefix? ['.', '.']
  let (stop, cs) ← Text.readNumeral? 10 cs
  return (⟨start, stop⟩, cs)

theorem toList_text (s : Span) :
    s.text.toList = Nat.toDigits 10 s.start ++ (['.', '.'] ++ Nat.toDigits 10 s.stop) := by
  simp [text, toString]

theorem newline_not_mem_text (s : Span) : '\n' ∉ s.text.toList := by
  have hdigits := Text.newline_not_mem_toDigits (by decide : 1 < 10) (by decide)
  simp [toList_text, hdigits]

/-- A span that no digit follows is read back. -/
theorem read?_text (s : Span) {rest : List Char}
    (hrest : rest.head?.any (Text.isDigitOf 10) = false) :
    read? (s.text.toList ++ rest) = some (s, rest) := by
  have hdots := Text.dropPrefix?_append ['.', '.'] (Nat.toDigits 10 s.stop ++ rest)
  have hstart : Text.readNumeral? 10
      (Nat.toDigits 10 s.start ++ (['.', '.'] ++ (Nat.toDigits 10 s.stop ++ rest))) =
        some (s.start, ['.', '.'] ++ (Nat.toDigits 10 s.stop ++ rest)) :=
    Text.readNumeral?_toDigits (by decide) (by decide) s.start rfl
  have hstop := Text.readNumeral?_toDigits (by decide : 1 < 10) (by decide) s.stop hrest
  rw [toList_text, List.append_assoc, List.append_assoc, read?, hstart]
  simp only [Option.bind_eq_bind, Option.bind_some]
  rw [hdots, Option.bind_some, hstop]
  rfl

end Tokenizer.Span
