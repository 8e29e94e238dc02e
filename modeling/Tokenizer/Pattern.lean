/-!
Patterns: the shapes that rules look for at the front of a text. Choice is ordered and repetition
is greedy, so a pattern matches a text in at most one way. `match?_split` states that a match only
divides the text, and `match?_many` that repetition goes on until a unit fails to use up text. The
stride of a step makes no difference here; it counts where patterns are read from bytes.
-/
namespace Tokenizer

/-- A text divided into the part that matched and what follows it. -/
structure Match where
  text : List Char
  rest : List Char
deriving DecidableEq, Repr

def Match.append (m n : Match) : Match := ⟨m.text ++ n.text, n.rest⟩

/-- How far a step over one character goes in the bytes of a text. -/
inductive Stride where
  /-- One byte, which is a whole character in ASCII only. -/
  | byte
  /-- The bytes of the character, as many as its first byte tells. -/
  | whole
deriving DecidableEq, Repr

/-- A shape to look for at the front of a text. -/
inductive Pattern where
  /-- The empty text. -/
  | empty
  /-- One character of a class. -/
  | one (p : Char → Bool) (stride : Stride := .byte)
  /-- All characters up to the first outside a class. -/
  | run (p : Char → Bool)
  /-- A run that is not empty. -/
  | run1 (p : Char → Bool)
  /-- The empty text, unless a character of a class comes next. -/
  | notBefore (p : Char → Bool)
  /-- One pattern and then another. -/
  | seq (first second : Pattern)
  /-- The first pattern or, where it fails, the second. -/
  | orElse (first second : Pattern)
  /-- As many units as there are, or none. -/
  | many (unit : Pattern)

namespace Pattern

instance : Append Pattern := ⟨seq⟩

/-- Repeats a unit until it fails or no longer uses up text. -/
def repeated (unit : List Char → Option Match) (cs : List Char) : Match :=
  match unit cs with
  | none => ⟨[], cs⟩
  | some m =>
    -- a unit that may be empty must not be repeated for ever; the rules repeat no such unit
    if m.rest.length < cs.length then m.append (repeated unit m.rest) else ⟨[], cs⟩
termination_by cs.length

def match? : Pattern → List Char → Option Match
  | empty, cs => some ⟨[], cs⟩
  | one _ _, [] => none
  | one p _, c :: cs => if p c then some ⟨[c], cs⟩ else none
  | run p, cs => some ⟨cs.takeWhile p, cs.dropWhile p⟩
  | run1 p, cs =>
    if cs.head?.any p then some ⟨cs.takeWhile p, cs.dropWhile p⟩ else none
  | notBefore p, cs => if cs.head?.any p then none else some ⟨[], cs⟩
  | seq a b, cs => do
    let m ← a.match? cs
    let n ← b.match? m.rest
    return m.append n
  | orElse a b, cs => (a.match? cs).or (b.match? cs)
  | many unit, cs => some (repeated unit.match? cs)

/-! ### Derived forms -/

def oneOf (cs : List Char) : Pattern := one (cs.contains ·)

def char (c : Char) : Pattern := one (· == c)

/-- The pattern or, where it fails, nothing. -/
def optional (a : Pattern) : Pattern := a.orElse empty

def literal : List Char → Pattern
  | [] => empty
  | c :: cs => char c ++ literal cs

def exactly (p : Char → Bool) : Nat → Pattern
  | 0 => empty
  | n + 1 => one p ++ exactly p n

/-- At most `n` characters of a class, and as many as there are. -/
def upTo (p : Char → Bool) : Nat → Pattern
  | 0 => empty
  | n + 1 => optional (one p ++ upTo p n)

/-! ### Matches divide the text -/

theorem repeated_split {unit : List Char → Option Match}
    (h : ∀ cs m, unit cs = some m → m.text ++ m.rest = cs) (cs : List Char) :
    (repeated unit cs).text ++ (repeated unit cs).rest = cs := by
  fun_induction repeated unit cs with
  | case1 cs _ => rfl
  | case2 cs m hm _ ih => simp [Match.append, ih, h cs m hm]
  | case3 cs m _ _ => rfl

/-- A match and what follows it make up the text. -/
theorem match?_split (a : Pattern) {cs : List Char} {m : Match} (h : a.match? cs = some m) :
    m.text ++ m.rest = cs := by
  induction a generalizing cs m with
  | empty =>
    obtain rfl : ⟨[], cs⟩ = m := by simpa [match?] using h
    rfl
  | one p stride =>
    cases cs with
    | nil => simp [match?] at h
    | cons c cs =>
      obtain ⟨_, rfl⟩ : p c = true ∧ ⟨[c], cs⟩ = m := by simpa [match?] using h
      rfl
  | run p =>
    obtain rfl : ⟨cs.takeWhile p, cs.dropWhile p⟩ = m := by simpa [match?] using h
    exact List.takeWhile_append_dropWhile
  | run1 p =>
    obtain ⟨_, rfl⟩ : cs.head?.any p = true ∧ ⟨cs.takeWhile p, cs.dropWhile p⟩ = m := by
      simpa [match?] using h
    exact List.takeWhile_append_dropWhile
  | notBefore p =>
    obtain ⟨_, rfl⟩ : ¬cs.head?.any p = true ∧ ⟨[], cs⟩ = m := by simpa [match?] using h
    rfl
  | seq a b iha ihb =>
    obtain ⟨m, hm, n, hn, rfl⟩ :
        ∃ m', a.match? cs = some m' ∧ ∃ n, b.match? m'.rest = some n ∧ m'.append n = m := by
      simpa [match?, Option.bind_eq_some_iff] using h
    simp [Match.append, ihb hn, iha hm]
  | orElse a b iha ihb =>
    rcases Option.or_eq_some_iff.1 h with h | ⟨_, h⟩
    · exact iha h
    · exact ihb h
  | many unit ih =>
    obtain rfl : repeated unit.match? cs = m := by simpa [match?] using h
    exact repeated_split (fun _ _ => ih) cs

/-- A match that is not empty leaves less to read. -/
theorem length_rest_lt (a : Pattern) {cs : List Char} {m : Match} (h : a.match? cs = some m)
    (hm : m.text ≠ []) : m.rest.length < cs.length := by
  have hlen := congrArg List.length (a.match?_split h)
  have hpos := List.length_pos_iff.2 hm
  simp only [List.length_append] at hlen
  omega

/-- Repetition goes on after each unit that is not empty, and ends at any other place. -/
theorem match?_many (unit : Pattern) (cs : List Char) :
    (many unit).match? cs =
      match unit.match? cs with
      | none => some ⟨[], cs⟩
      | some m =>
        if m.text = [] then some ⟨[], cs⟩ else ((many unit).match? m.rest).map m.append := by
  rw [match?, repeated]
  split
  · rfl
  · rename_i m hm
    have hsplit := congrArg List.length (unit.match?_split hm)
    simp only [List.length_append] at hsplit
    by_cases ht : m.text = []
    · have : ¬m.rest.length < cs.length := by simp [ht] at hsplit; omega
      simp [ht, this]
    · simp [ht, unit.length_rest_lt hm ht, match?]

end Pattern
end Tokenizer
