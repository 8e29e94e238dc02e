import Tokenizer.Proofs.Matching
import Tokenizer.Rule

/-!
What patterns look at. A pattern none of whose classes holds a character takes that character for
the end of the text: it neither reads it nor sees what comes after it. And the first character of
a text already rules out most patterns.
-/
namespace Tokenizer

/-- The same match in a text that goes on. -/
def Match.extend (m : Match) (cs : List Char) : Match := ⟨m.text, m.rest ++ cs⟩

namespace Pattern

/-- No class of the pattern holds the character. -/
def avoids (c : Char) : Pattern → Bool
  | empty => true
  | one p _ | run p | run1 p | notBefore p => !p c
  | seq a b | orElse a b => a.avoids c && b.avoids c
  | many unit => unit.avoids c

theorem takeWhile_append_of_stop {p : Char → Bool} {c : Char} (h : p c = false)
    (xs ys : List Char) : (xs ++ c :: ys).takeWhile p = xs.takeWhile p := by
  induction xs with
  | nil => simp [h]
  | cons x xs ih => simp [List.takeWhile_cons, ih]

theorem dropWhile_append_of_stop {p : Char → Bool} {c : Char} (h : p c = false)
    (xs ys : List Char) : (xs ++ c :: ys).dropWhile p = xs.dropWhile p ++ c :: ys := by
  induction xs with
  | nil => simp [h]
  | cons x xs ih =>
    by_cases hx : p x = true
    · simp [hx, ih]
    · simp [hx]

theorem repeated_append {unit : List Char → Option Match} {zs : List Char}
    (h : ∀ cs, unit (cs ++ zs) = (unit cs).map (·.extend zs)) (xs : List Char) :
    repeated unit (xs ++ zs) = (repeated unit xs).extend zs := by
  fun_induction repeated unit xs with
  | case1 cs hcs =>
    rw [repeated, h cs, hcs]
    rfl
  | case2 cs m hm hlt ih =>
    have hlt' : (m.rest ++ zs).length < (cs ++ zs).length := by
      simp only [List.length_append]
      omega
    rw [repeated, h cs, hm]
    simp only [Option.map_some, Match.extend, hlt', ↓reduceIte] at ih ⊢
    rw [ih]
    rfl
  | case3 cs m hm hlt =>
    have hlt' : ¬(m.rest ++ zs).length < (cs ++ zs).length := by
      simp only [List.length_append]
      omega
    rw [repeated, h cs, hm]
    simp only [Option.map_some, Match.extend, hlt', ↓reduceIte]

/-- A pattern matches in front of a character that it avoids as it does at the end of a text. -/
theorem match?_append_of_avoids (a : Pattern) {c : Char} (h : a.avoids c = true)
    (xs ys : List Char) :
    a.match? (xs ++ c :: ys) = (a.match? xs).map (·.extend (c :: ys)) := by
  induction a generalizing xs with
  | empty => rfl
  | one p stride =>
    have hp : p c = false := by simpa [avoids] using h
    cases xs with
    | nil => simp [match?, hp]
    | cons x xs =>
      by_cases hx : p x = true
      · simp [match?, hx, Match.extend]
      · simp [match?, hx]
  | run p =>
    have hp : p c = false := by simpa [avoids] using h
    simp [match?, Match.extend, takeWhile_append_of_stop hp, dropWhile_append_of_stop hp]
  | run1 p =>
    have hp : p c = false := by simpa [avoids] using h
    have hhead : (xs ++ c :: ys).head?.any p = xs.head?.any p := by
      cases xs with
      | nil => simp [hp]
      | cons x xs => rfl
    rw [match?, match?, hhead, takeWhile_append_of_stop hp, dropWhile_append_of_stop hp]
    split <;> rfl
  | notBefore p =>
    have hp : p c = false := by simpa [avoids] using h
    cases xs with
    | nil => simp [match?, hp, Match.extend]
    | cons x xs =>
      by_cases hx : p x = true
      · simp [match?, hx]
      · simp [match?, hx, Match.extend]
  | seq a b iha ihb =>
    obtain ⟨ha, hb⟩ : a.avoids c = true ∧ b.avoids c = true := by simpa [avoids] using h
    simp only [match?, iha ha]
    cases a.match? xs with
    | none => rfl
    | some m =>
      have hrest := ihb hb m.rest
      simp only [Option.map_some, Match.extend, bind, Option.bind_some] at hrest ⊢
      rw [hrest]
      cases b.match? m.rest <;> rfl
  | orElse a b iha ihb =>
    obtain ⟨ha, hb⟩ : a.avoids c = true ∧ b.avoids c = true := by simpa [avoids] using h
    simp only [match?, iha ha, ihb hb]
    cases a.match? xs <;> rfl
  | many unit ih =>
    have hu : ∀ cs, unit.match? (cs ++ c :: ys) = (unit.match? cs).map (·.extend (c :: ys)) :=
      fun cs => ih (by simpa [avoids] using h) cs
    simp [match?, repeated_append hu]

theorem readsOnly_of_avoids {a : Pattern} {c : Char} (h : a.avoids c = true) :
    a.ReadsOnly (· ≠ c) := by
  induction a with
  | empty | notBefore _ => trivial
  | one p _ | run p | run1 p =>
    rintro d hd rfl
    simp [avoids, hd] at h
  | seq a b iha ihb | orElse a b iha ihb =>
    obtain ⟨ha, hb⟩ : a.avoids c = true ∧ b.avoids c = true := by simpa [avoids] using h
    exact ⟨iha ha, ihb hb⟩
  | many unit ih => exact ih (by simpa [avoids] using h)

/-- The pattern may match the empty text. -/
def nullable : Pattern → Bool
  | empty | run _ | notBefore _ | many _ => true
  | one _ _ | run1 _ => false
  | seq a b => a.nullable && b.nullable
  | orElse a b => a.nullable || b.nullable

/-- A match that is not empty may start with the character. -/
def canStart (c : Char) : Pattern → Bool
  | empty | notBefore _ => false
  | one p _ | run p | run1 p => p c
  | seq a b => a.canStart c || (a.nullable && b.canStart c)
  | orElse a b => a.canStart c || b.canStart c
  | many unit => unit.canStart c

@[simp] theorem avoids_append (a b : Pattern) (c : Char) :
    (a ++ b).avoids c = (a.avoids c && b.avoids c) := rfl

@[simp] theorem nullable_append (a b : Pattern) : (a ++ b).nullable = (a.nullable && b.nullable) :=
  rfl

@[simp] theorem canStart_append (a b : Pattern) (c : Char) :
    (a ++ b).canStart c = (a.canStart c || (a.nullable && b.canStart c)) := rfl

theorem nullable_of_match? (a : Pattern) {cs : List Char} {m : Match} (h : a.match? cs = some m)
    (hm : m.text = []) : a.nullable = true := by
  induction a generalizing cs m with
  | empty | run _ | notBefore _ | many _ => rfl
  | one p stride =>
    cases cs with
    | nil => simp [match?] at h
    | cons c cs =>
      obtain ⟨_, rfl⟩ : p c = true ∧ ⟨[c], cs⟩ = m := by simpa [match?] using h
      simp at hm
  | run1 p =>
    obtain ⟨c, rest, rfl, hc, rfl⟩ := match?_run1_eq_some.1 h
    simp [hc] at hm
  | seq a b iha ihb =>
    obtain ⟨m', hm', n, hn, rfl⟩ :
        ∃ m', a.match? cs = some m' ∧ ∃ n, b.match? m'.rest = some n ∧ m'.append n = m := by
      simpa [match?, Option.bind_eq_some_iff] using h
    obtain ⟨ha, hb⟩ : m'.text = [] ∧ n.text = [] := by simpa [Match.append] using hm
    simp [nullable, iha hm' ha, ihb hn hb]
  | orElse a b iha ihb =>
    rcases Option.or_eq_some_iff.1 h with h | ⟨_, h⟩
    · simp [nullable, iha h hm]
    · simp [nullable, ihb h hm]

/-- A pattern that is not nullable uses up text. -/
theorem text_ne_nil_of_match? {a : Pattern} (ha : a.nullable = false) {cs : List Char} {m : Match}
    (h : a.match? cs = some m) : m.text ≠ [] := by
  intro hm
  simp [a.nullable_of_match? h hm] at ha

/-- Where a unit cannot be empty, repetition ends at the first place where the unit fails. -/
theorem repeated_of_nullable_eq_false {unit : Pattern} (hunit : unit.nullable = false)
    (cs : List Char) :
    repeated unit.match? cs =
      match unit.match? cs with
      | none => ⟨[], cs⟩
      | some m => m.append (repeated unit.match? m.rest) := by
  rw [repeated]
  cases hm : unit.match? cs with
  | none => rfl
  | some m => exact if_pos (unit.length_rest_lt hm (text_ne_nil_of_match? hunit hm))

theorem canStart_of_match? (a : Pattern) {c : Char} {cs : List Char} {m : Match}
    (h : a.match? (c :: cs) = some m) (hm : m.text ≠ []) : a.canStart c = true := by
  induction a generalizing m with
  | empty =>
    obtain rfl : ⟨[], c :: cs⟩ = m := by simpa [match?] using h
    simp at hm
  | one p stride =>
    obtain ⟨hp, -⟩ : p c = true ∧ ⟨[c], cs⟩ = m := by simpa [match?] using h
    exact hp
  | run p =>
    obtain rfl : ⟨(c :: cs).takeWhile p, (c :: cs).dropWhile p⟩ = m := by
      simpa [match?] using h
    cases hp : p c with
    | false => simp [hp] at hm
    | true => exact hp
  | run1 p =>
    obtain ⟨d, rest, heq, hd, -⟩ := match?_run1_eq_some.1 h
    obtain ⟨rfl, -⟩ := List.cons.inj heq
    exact hd
  | notBefore p =>
    obtain ⟨-, rfl⟩ : ¬(c :: cs).head?.any p = true ∧ ⟨[], c :: cs⟩ = m := by
      simpa only [match?, Option.ite_none_left_eq_some, Option.some.injEq] using h
    simp at hm
  | seq a b iha ihb =>
    obtain ⟨m', hm', n, hn, rfl⟩ :
        ∃ m', a.match? (c :: cs) = some m' ∧
          ∃ n, b.match? m'.rest = some n ∧ m'.append n = m := by
      simpa [match?, Option.bind_eq_some_iff] using h
    by_cases ht : m'.text = []
    · -- the first part is empty, so the second starts at `c`
      have hrest : m'.rest = c :: cs := by simpa [ht] using a.match?_split hm'
      rw [hrest] at hn
      have hb := ihb hn (by simpa [Match.append, ht] using hm)
      simp [canStart, a.nullable_of_match? hm' ht, hb]
    · simp [canStart, iha hm' ht]
  | orElse a b iha ihb =>
    rcases Option.or_eq_some_iff.1 h with h | ⟨_, h⟩
    · simp [canStart, iha h hm]
    · simp [canStart, ihb h hm]
  | many unit ih =>
    rw [match?_many] at h
    split at h
    · obtain rfl : ⟨[], c :: cs⟩ = m := by simpa using h
      simp at hm
    · rename_i m' hm'
      split at h
      · obtain rfl : ⟨[], c :: cs⟩ = m := by simpa using h
        simp at hm
      · rename_i ht
        exact ih hm' ht

end Pattern

namespace Rule

theorem match?_append_of_avoids (rule : Rule) {c : Char} (h : rule.pattern.avoids c = true)
    (xs ys : List Char) :
    rule.match? (xs ++ c :: ys) = (rule.match? xs).map (·.extend (c :: ys)) := by
  rw [match?, match?, rule.pattern.match?_append_of_avoids h]
  cases rule.pattern.match? xs with
  | none => rfl
  | some m =>
    simp only [Option.map_some, Option.filter_some, Match.extend]
    split <;> rfl

theorem first?_cons_of_match? {rule : Rule} {cs : List Char} {m : Match}
    (h : rule.match? cs = some m) (rules : List Rule) :
    first? (rule :: rules) cs = some (rule, m) := by
  simp [first?, h]

theorem first?_cons_of_eq_none {rule : Rule} {cs : List Char} (h : rule.match? cs = none)
    (rules : List Rule) : first? (rule :: rules) cs = first? rules cs := by
  simp [first?, h]

theorem match?_eq_none_of_canStart {rule : Rule} {c : Char} (h : rule.pattern.canStart c = false)
    (cs : List Char) : rule.match? (c :: cs) = none := by
  rw [Option.eq_none_iff_forall_ne_some]
  intro m hm
  obtain ⟨hm, hne⟩ := match?_eq_some_iff.1 hm
  simp [rule.pattern.canStart_of_match? hm hne] at h

/-- Rules that cannot start with the first character of the text may be left out. -/
theorem first?_filter_canStart (rules : List Rule) (c : Char) (cs : List Char) :
    first? (rules.filter (·.pattern.canStart c)) (c :: cs) = first? rules (c :: cs) := by
  induction rules with
  | nil => rfl
  | cons rule rules ih =>
    cases h : rule.pattern.canStart c with
    | false =>
      rw [List.filter_cons_of_neg (by simp [h]), ih,
        first?_cons_of_eq_none (match?_eq_none_of_canStart h cs)]
    | true =>
      rw [List.filter_cons_of_pos (by simp [h])]
      simp only [first?, List.findSome?_cons] at ih ⊢
      rw [ih]

/-- If all rules match a text as they do when it goes on, the first that matches is the same. -/
theorem first?_append {rules : List Rule} {xs zs : List Char}
    (h : ∀ rule ∈ rules, rule.match? (xs ++ zs) = (rule.match? xs).map (·.extend zs)) :
    first? rules (xs ++ zs) = (first? rules xs).map fun p => (p.1, p.2.extend zs) := by
  induction rules with
  | nil => rfl
  | cons rule rules ih =>
    have hrule := h rule List.mem_cons_self
    have hrules := ih fun r hr => h r (List.mem_cons_of_mem rule hr)
    simp only [first?, List.findSome?_cons, hrule] at hrules ⊢
    cases rule.match? xs with
    | none => exact hrules
    | some m => rfl

end Rule
end Tokenizer
