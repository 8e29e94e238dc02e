import Mathlib.Data.List.TakeWhile
import Tokenizer.Pattern
import Tokenizer.Pattern.Literal

/-!
Matches of patterns: equations for the derived forms, and what the characters of a match have in
common.
-/
namespace Tokenizer.Pattern

@[simp] theorem match?_append (a b : Pattern) (cs : List Char) :
    (a ++ b).match? cs = (a.match? cs).bind fun m => (b.match? m.rest).map m.append := by
  change (seq a b).match? cs = _
  rw [match?]
  cases a.match? cs with
  | none => rfl
  | some m => cases h : b.match? m.rest <;> simp [h]

@[simp] theorem match?_one_nil (p : Char → Bool) (stride : Stride) :
    (one p stride).match? [] = none := rfl

@[simp] theorem match?_one_cons (p : Char → Bool) (stride : Stride) (c : Char) (cs : List Char) :
    (one p stride).match? (c :: cs) = if p c then some ⟨[c], cs⟩ else none := rfl

@[simp] theorem match?_char_nil (d : Char) : (char d).match? [] = none := rfl

@[simp] theorem match?_char_cons (d c : Char) (cs : List Char) :
    (char d).match? (c :: cs) = if c = d then some ⟨[c], cs⟩ else none := by
  simp [char]

@[simp] theorem match?_notBefore (p : Char → Bool) (cs : List Char) :
    (notBefore p).match? cs = if cs.head?.any p then none else some ⟨[], cs⟩ := rfl

@[simp] theorem match?_run1_nil (p : Char → Bool) : (run1 p).match? [] = none := rfl

/-- A run that is not empty reads all characters of its class. -/
@[simp] theorem match?_run1_cons (p : Char → Bool) (c : Char) (cs : List Char) :
    (run1 p).match? (c :: cs) =
      if p c then some ⟨(c :: cs).takeWhile p, (c :: cs).dropWhile p⟩ else none := rfl

theorem match?_run1_of_pos {p : Char → Bool} {c : Char} (hc : p c = true) (cs : List Char) :
    (run1 p).match? (c :: cs) = (run p).match? (c :: cs) := if_pos hc

theorem match?_run1_eq_some {p : Char → Bool} {cs : List Char} {m : Match} :
    (run1 p).match? cs = some m ↔
      ∃ c rest, cs = c :: rest ∧ p c = true ∧ m = ⟨cs.takeWhile p, cs.dropWhile p⟩ := by
  cases cs with
  | nil => simp
  | cons c cs =>
    rw [match?_run1_cons, Option.ite_none_right_eq_some, Option.some.injEq]
    constructor
    · rintro ⟨hc, rfl⟩
      exact ⟨c, cs, rfl, hc, rfl⟩
    · rintro ⟨d, rest, heq, hd, rfl⟩
      obtain ⟨rfl, rfl⟩ := List.cons.inj heq
      exact ⟨hd, rfl⟩

theorem match?_append_eq_some {a b : Pattern} {cs : List Char} {m : Match} :
    (a ++ b).match? cs = some m ↔
      ∃ x, a.match? cs = some x ∧ ∃ y, b.match? x.rest = some y ∧ x.append y = m := by
  simp [Option.bind_eq_some_iff]

theorem match?_append_assoc (a b c : Pattern) (cs : List Char) :
    (a ++ b ++ c).match? cs = (a ++ (b ++ c)).match? cs := by
  simp only [match?_append]
  cases a.match? cs with
  | none => rfl
  | some x =>
    simp only [Option.bind_some]
    cases b.match? x.rest with
    | none => rfl
    | some y =>
      simp only [Option.map_some, Option.bind_some, Match.append, Option.map_map]
      cases c.match? y.rest <;> simp [Match.append]

theorem match?_one_eq_some {p : Char → Bool} {stride : Stride} {cs : List Char} {m : Match} :
    (one p stride).match? cs = some m ↔
      ∃ c rest, cs = c :: rest ∧ p c = true ∧ m = ⟨[c], rest⟩ := by
  cases cs with
  | nil => simp
  | cons c cs =>
    simp only [match?_one_cons, Option.ite_none_right_eq_some, Option.some.injEq, List.cons.injEq]
    constructor
    · rintro ⟨hp, rfl⟩
      exact ⟨c, cs, ⟨rfl, rfl⟩, hp, rfl⟩
    · rintro ⟨d, rest, ⟨rfl, rfl⟩, hp, rfl⟩
      exact ⟨hp, rfl⟩

theorem match?_char_eq_some {d : Char} {cs : List Char} {m : Match} :
    (char d).match? cs = some m ↔ ∃ rest, cs = d :: rest ∧ m = ⟨[d], rest⟩ := by
  rw [char, match?_one_eq_some]
  constructor
  · rintro ⟨c, rest, rfl, hc, rfl⟩
    obtain rfl : c = d := by simpa using hc
    exact ⟨rest, rfl, rfl⟩
  · rintro ⟨rest, rfl, rfl⟩
    exact ⟨d, rest, rfl, by simp, rfl⟩

theorem match?_literal_eq_some {ws cs : List Char} {m : Match} :
    (literal ws).match? cs = some m ↔ ∃ rest, cs = ws ++ rest ∧ m = ⟨ws, rest⟩ := by
  induction ws generalizing cs m with
  | nil => simp [literal, match?, eq_comm]
  | cons w ws ih =>
    rw [literal, match?_append_eq_some]
    constructor
    · rintro ⟨x, hx, y, hy, rfl⟩
      obtain ⟨rest, rfl, rfl⟩ := match?_char_eq_some.1 hx
      obtain ⟨tail, rfl, rfl⟩ := ih.1 hy
      exact ⟨tail, rfl, rfl⟩
    · rintro ⟨rest, rfl, rfl⟩
      exact ⟨⟨[w], ws ++ rest⟩, match?_char_eq_some.2 ⟨_, rfl, rfl⟩, ⟨ws, rest⟩,
        ih.2 ⟨rest, rfl, rfl⟩, rfl⟩

theorem match?_oneOf_eq_some {ws cs : List Char} {m : Match} :
    (oneOf ws).match? cs = some m ↔ ∃ c rest, cs = c :: rest ∧ c ∈ ws ∧ m = ⟨[c], rest⟩ := by
  rw [oneOf, match?_one_eq_some]
  simp

/-- The pattern reads no characters but those with the property. -/
def ReadsOnly (q : Char → Prop) : Pattern → Prop
  | empty | notBefore _ => True
  | one p _ | run p | run1 p => ∀ c, p c = true → q c
  | seq a b | orElse a b => a.ReadsOnly q ∧ b.ReadsOnly q
  | many unit => unit.ReadsOnly q

theorem forall_mem_repeated {q : Char → Prop} {unit : List Char → Option Match}
    (h : ∀ cs m, unit cs = some m → ∀ c ∈ m.text, q c) (cs : List Char) :
    ∀ c ∈ (repeated unit cs).text, q c := by
  fun_induction repeated unit cs with
  | case1 => simp
  | case2 cs m hm _ ih =>
    intro c hc
    rcases List.mem_append.1 hc with hc | hc
    · exact h cs m hm c hc
    · exact ih c hc
  | case3 => simp

theorem forall_mem_of_match? {a : Pattern} {q : Char → Prop} (ha : a.ReadsOnly q)
    {cs : List Char} {m : Match} (h : a.match? cs = some m) : ∀ c ∈ m.text, q c := by
  induction a generalizing cs m with
  | empty =>
    obtain rfl : ⟨[], cs⟩ = m := by simpa [match?] using h
    simp
  | one p stride =>
    cases cs with
    | nil => simp at h
    | cons c cs =>
      obtain ⟨hp, rfl⟩ : p c = true ∧ ⟨[c], cs⟩ = m := by simpa using h
      simpa using ha c hp
  | run p =>
    obtain rfl : ⟨cs.takeWhile p, cs.dropWhile p⟩ = m := by simpa [match?] using h
    intro c hc
    exact ha c (List.mem_takeWhile_imp hc)
  | run1 p =>
    obtain ⟨-, -, -, -, rfl⟩ := match?_run1_eq_some.1 h
    intro c hc
    exact ha c (List.mem_takeWhile_imp hc)
  | notBefore p =>
    obtain ⟨-, rfl⟩ : ¬cs.head?.any p = true ∧ ⟨[], cs⟩ = m := by simpa [match?] using h
    simp
  | seq a b iha ihb =>
    obtain ⟨m', hm', n, hn, rfl⟩ :
        ∃ m', a.match? cs = some m' ∧ ∃ n, b.match? m'.rest = some n ∧ m'.append n = m := by
      simpa [match?, Option.bind_eq_some_iff] using h
    intro c hc
    rcases List.mem_append.1 hc with hc | hc
    · exact iha ha.1 hm' c hc
    · exact ihb ha.2 hn c hc
  | orElse a b iha ihb =>
    rcases Option.or_eq_some_iff.1 h with h | ⟨_, h⟩
    · exact iha ha.1 h
    · exact ihb ha.2 h
  | many unit ih =>
    obtain rfl : repeated unit.match? cs = m := by simpa [match?] using h
    exact forall_mem_repeated (fun _ _ hm => ih ha hm) cs

theorem readsOnly_exactly (p : Char → Bool) (n : Nat) :
    (exactly p n).ReadsOnly fun c => p c = true := by
  induction n with
  | zero => trivial
  | succ n ih => exact ⟨fun _ hc => hc, ih⟩

theorem readsOnly_upTo (p : Char → Bool) (n : Nat) :
    (upTo p n).ReadsOnly fun c => p c = true := by
  induction n with
  | zero => trivial
  | succ n ih => exact ⟨⟨fun _ hc => hc, ih⟩, trivial⟩

/-- An escape sequence between single quotes is one that also stands there without them. -/
theorem exists_of_match?_charEscapeLiteral {cs : List Char} {m : Match}
    (h : charEscapeLiteral.match? cs = some m) :
    ∃ body, body ≠ [] ∧ m.text = '\'' :: (body ++ ['\'']) ∧
      escape.match? (body ++ '\'' :: m.rest) = some ⟨body, '\'' :: m.rest⟩ := by
  obtain ⟨front, hfront, close, hclose, rfl⟩ := match?_append_eq_some.1 h
  obtain ⟨quote, hquote, body, hbody, rfl⟩ := match?_append_eq_some.1 hfront
  obtain ⟨backslash, hbackslash, tail, -, htext⟩ := match?_append_eq_some.1 hbody
  obtain ⟨_, -, rfl⟩ := match?_char_eq_some.1 hquote
  obtain ⟨_, -, rfl⟩ := match?_char_eq_some.1 hbackslash
  obtain ⟨rest, hrest, rfl⟩ := match?_char_eq_some.1 hclose
  have hrest : body.rest = '\'' :: rest := hrest
  have hsplit := match?_split _ hbody
  refine ⟨body.text, by simp [← htext, Match.append], by simp [Match.append], ?_⟩
  change escape.match? (body.text ++ '\'' :: rest) = some ⟨body.text, '\'' :: rest⟩
  rw [← hrest, hsplit, hbody]

end Tokenizer.Pattern
