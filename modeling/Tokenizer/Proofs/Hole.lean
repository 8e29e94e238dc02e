import Tokenizer.Proofs.Fault
import Tokenizer.Proofs.Reading
import Tokenizer.Proofs.StringOpening
import Tokenizer.Proofs.Uniform

/-!
Holes. Where no rule of the active mode reads on, a step takes one character as invalid. In code
these places are characters that the language does not use, and an `@` without a name; in a string
they are backslashes that escape nothing. Comments have no such place.
-/
namespace Tokenizer

open CharClass

/--
No word of code has the character at its start: it is beyond ASCII, a control other than white
space, or a mark without a meaning.
-/
def isUnusedInCode (c : Char) : Bool :=
  128 ≤ c.toNat || ['\\', '#', '\x60'].contains c ||
    (c.toNat < 32 || c.toNat == 127) && !(['\t', '\n', '\r'].contains c)

/-- An identifier starts here, perhaps after spaces and tabs. -/
def namesNext (cs : List Char) : Bool :=
  (cs.dropWhile isHorizontalSpace).head?.any isIdentifierStart

/-- Nothing in the active mode starts with the character `c`, where `cs` follows it. -/
def ModeStack.hole (modes : ModeStack) (c : Char) (cs : List Char) : Bool :=
  match modes.regions with
  | [] => isUnusedInCode c || c == '@' && !namesNext cs
  | .string :: _ => c == '\\' && cs.head?.all isLineBreak
  | .blockComment :: _ | .docComment :: _ => false

/-! ### The first character -/

/-- What holds of the first 128 code points holds of ASCII. -/
theorem forall_ascii {q : Char → Prop} (h : ∀ n < 128, q (Char.ofNat n)) :
    ∀ c : Char, c.toNat < 128 → q c := by
  intro c hc
  have hnumber := h c.toNat hc
  rwa [Char.ofNat_toNat] at hnumber

/-- A uniform pattern starts with all characters beyond ASCII or with none of them. -/
theorem Pattern.canStart_eq {a : Pattern} (ha : a.EveryClass Uniform) {c d : Char}
    (hc : 128 ≤ c.toNat) (hd : 128 ≤ d.toNat) : a.canStart c = a.canStart d := by
  induction a with
  | empty | notBefore _ => rfl
  | one p _ | run p | run1 p => exact ha c d hc hd
  | seq a b iha ihb | orElse a b iha ihb => rw [canStart, canStart, iha ha.1, ihb ha.2]
  | many unit ih => exact ih ha

theorem canStart_of_isUnusedInCode {c : Char} (h : isUnusedInCode c = true) :
    ∀ rule ∈ rootRules, rule.pattern.canStart c = false := by
  by_cases hc : c.toNat < 128
  · have hascii : ∀ d : Char, d.toNat < 128 → isUnusedInCode d = true →
        ∀ rule ∈ rootRules, rule.pattern.canStart d = false :=
      forall_ascii (by decide +kernel)
    exact hascii c hc h
  · have hbeyond : ∀ rule ∈ rootRules, rule.pattern.canStart '\u0080' = false := by
      decide +kernel
    intro rule hmem
    have huniform := Pattern.uniform_rules .root rule hmem
    rw [Pattern.canStart_eq huniform (by omega) (by decide : 128 ≤ '\u0080'.toNat)]
    exact hbeyond rule hmem

/-- Every character of code but an `@` starts a word or is unused. -/
theorem startsWord_of_isUnusedInCode {c : Char} (h : isUnusedInCode c = false) (hat : c ≠ '@') :
    startsWord c = true := by
  have hascii : ∀ d : Char, d.toNat < 128 → isUnusedInCode d = false → d ≠ '@' →
      startsWord d = true :=
    forall_ascii (by decide +kernel)
  have hc : c.toNat < 128 := by
    by_contra hle
    simp [isUnusedInCode, Nat.not_lt.1 hle] at h
  exact hascii c hc h hat

/-! ### No rule matches -/

namespace Rule

theorem first?_eq_none_iff {rules : List Rule} {cs : List Char} :
    first? rules cs = none ↔ ∀ rule ∈ rules, rule.match? cs = none := by
  simp [first?]

theorem first?_eq_none_of_canStart {rules : List Rule} {c : Char}
    (h : ∀ rule ∈ rules, rule.pattern.canStart c = false) (cs : List Char) :
    first? rules (c :: cs) = none :=
  first?_eq_none_iff.2 fun rule hmem => match?_eq_none_of_canStart (h rule hmem) cs

theorem first?_ne_none_of_startsAt {rules : List Rule} {c : Char}
    (h : ∃ rule ∈ rules, rule.pattern.startsAt c = true) (cs : List Char) :
    first? rules (c :: cs) ≠ none := by
  obtain ⟨rule, hmem, hstarts⟩ := h
  intro hnone
  exact match?_ne_none_of_startsAt hstarts cs (first?_eq_none_iff.1 hnone rule hmem)

theorem first?_singleton_eq_none {rule : Rule} {cs : List Char} :
    first? [rule] cs = none ↔ rule.match? cs = none := by
  simp [first?]

end Rule

/-- At an `@` the name after it decides. -/
theorem first?_root_at (cs : List Char) :
    Rule.first? rootRules ('@' :: cs) = none ↔ namesNext cs = false := by
  have hrules : rootRules.filter (·.pattern.canStart '@') =
      [⟨"annotation", .annotationName, .emit .annotationName, .stay⟩] := rfl
  rw [← Rule.first?_filter_canStart, hrules, Rule.first?_singleton_eq_none, namesNext]
  cases hdrop : cs.dropWhile isHorizontalSpace with
  | nil =>
    simp [Rule.match?, Pattern.annotationName, Pattern.identifier, Pattern.match?, Match.append,
      hdrop]
  | cons d ds =>
    cases hd : isIdentifierStart d <;>
      simp [Rule.match?, Pattern.annotationName, Pattern.identifier, Pattern.match?, Match.append,
        hdrop, hd]

theorem first?_root_eq_none_iff (c : Char) (cs : List Char) :
    Rule.first? rootRules (c :: cs) = none ↔
      (isUnusedInCode c || c == '@' && !namesNext cs) = true := by
  by_cases hat : c = '@'
  · subst hat
    have hused : isUnusedInCode '@' = false := by decide
    rw [first?_root_at]
    simp [hused]
  · cases h : isUnusedInCode c with
    | true =>
      have hnone := Rule.first?_eq_none_of_canStart (canStart_of_isUnusedInCode h) cs
      simp [hnone]
    | false =>
      have hsome := Rule.first?_ne_none_of_startsAt
        (exists_rule_of_startsWord (startsWord_of_isUnusedInCode h hat)) cs
      simp [hat, hsome]

/-- In a comment every character is text or a symbol. -/
theorem first?_comment_ne_none {region : Region} (h : region ≠ .string) (c : Char)
    (cs : List Char) : Rule.first? (Mode.inside region).rules (c :: cs) ≠ none := by
  apply Rule.first?_ne_none_of_startsAt
  by_cases hc : c = '\\'
  · subst hc
    cases region with
    | string => exact absurd rfl h
    | blockComment | docComment => exact ⟨_, List.mem_cons_self, by decide⟩
  · exact exists_rule_of_ne_backslash region hc

theorem step_rule?_eq_none_iff (start : Nat) (modes : ModeStack) (c : Char) (cs : List Char) :
    (step start modes c cs).rule? = none ↔ Rule.first? modes.top.rules (c :: cs) = none := by
  rw [step]
  cases Rule.first? modes.top.rules (c :: cs) <;> simp

/-- In a string only a backslash can be left over, and any other character of its line saves it. -/
theorem first?_string_eq_none_iff {modes : ModeStack} (htop : modes.top = .inside .string)
    (c : Char) (cs : List Char) :
    Rule.first? modes.top.rules (c :: cs) = none ↔
      (c == '\\' && cs.head?.all isLineBreak) = true := by
  by_cases hc : c = '\\'
  · subst hc
    rw [← step_rule?_eq_none_iff 0 modes]
    cases cs with
    | nil =>
      have hstep : step 0 modes '\\' [] = ⟨0, modes, none, ['\\'], []⟩ :=
        step_string_dangling htop 0 (by simp)
      simp [hstep]
    | cons d ds =>
      cases hd : isLineBreak d with
      | true =>
        have hstep : step 0 modes '\\' (d :: ds) = ⟨0, modes, none, ['\\'], d :: ds⟩ :=
          step_string_dangling htop 0 (by simpa using hd)
        simp [hstep, hd]
      | false =>
        cases hm : Pattern.escape.match? ('\\' :: d :: ds) with
        | some m => simp [step_string_escape htop 0 hm, hd]
        | none => simp [step_string_escape_invalid htop 0 hd hm, hd]
  · have hsome := Rule.first?_ne_none_of_startsAt (exists_rule_of_ne_backslash .string hc) cs
    rw [htop]
    simpa [hc] using hsome

/-- No rule matches exactly at the holes of the active mode. -/
theorem ModeStack.first?_eq_none_iff (modes : ModeStack) (c : Char) (cs : List Char) :
    Rule.first? modes.top.rules (c :: cs) = none ↔ modes.hole c cs = true := by
  obtain ⟨regions⟩ := modes
  cases regions with
  | nil => exact first?_root_eq_none_iff c cs
  | cons region regions =>
    cases region with
    | string => exact first?_string_eq_none_iff rfl c cs
    | blockComment | docComment =>
      exact iff_of_false (first?_comment_ne_none (by simp) c cs) (by simp [hole])

/-! ### Invalid tokens -/

/-- Without a rule a step gives one invalid token, and with one it gives none. -/
theorem exists_invalid_iff (start : Nat) (modes : ModeStack) (c : Char) (cs : List Char) :
    (∃ t ∈ (step start modes c cs).tokens, t.category = .invalid) ↔
      (step start modes c cs).rule? = none := by
  constructor
  · rintro ⟨t, ht, hcategory⟩
    have hfault : t.category.isFault = true := by rw [hcategory]; rfl
    rcases fault_cases ht hfault with ⟨rule, m, -, -, -, -, hmode⟩ | ⟨-, hstep⟩
    · rw [hcategory] at hmode
      simp [Category.faultMode?] at hmode
    · rw [hstep]
  · intro hnone
    rcases step_cases start modes c cs with ⟨rule, m, -, -, hstep⟩ | hstep
    · simp [hstep] at hnone
    · rw [hstep]
      exact ⟨_, List.mem_singleton_self _, rfl⟩

theorem step_of_hole {modes : ModeStack} {c : Char} {cs : List Char} (h : modes.hole c cs = true)
    (start : Nat) : step start modes c cs = ⟨start, modes, none, [c], cs⟩ := by
  rw [step, (modes.first?_eq_none_iff c cs).2 h]

/--
What a step does where the character `c` and then `cs` lie ahead: if that is a hole, it reads just
this character, without a rule and as one invalid token. Otherwise a rule matches, and no token of
the step is invalid.
-/
structure Step.MeetsHole (s : Step) (c : Char) (cs : List Char) : Prop where
  rule?_eq_none_iff : s.rule? = none ↔ s.modes.hole c cs = true
  invalid_iff : (∃ t ∈ s.tokens, t.category = .invalid) ↔ s.modes.hole c cs = true
  tokens_eq : s.modes.hole c cs = true → s.tokens = [⟨.invalid, s.start, [c]⟩]

theorem meetsHole_step (start : Nat) (modes : ModeStack) (c : Char) (cs : List Char) :
    (step start modes c cs).MeetsHole c cs := by
  have hrule : (step start modes c cs).rule? = none ↔
      (step start modes c cs).modes.hole c cs = true := by
    rw [step_rule?_eq_none_iff, step_modes, ModeStack.first?_eq_none_iff]
  refine ⟨hrule, ?_, ?_⟩
  · rw [← hrule, exists_invalid_iff]
  · intro hhole
    rw [step_modes] at hhole
    rw [step_of_hole hhole]
    rfl

/-- Every step of a scan takes the fallback exactly if a hole of its mode lies ahead. -/
theorem scan_meets_holes (modes : ModeStack) (source : List Char) :
    ∀ s ∈ scan modes source, ∃ before c cs, source = before ++ c :: cs ∧
      s.start = Text.width before ∧ s.MeetsHole c cs := by
  intro s hs
  obtain ⟨taken, left, hscan⟩ := List.append_of_mem hs
  obtain ⟨c, cs, hsource, hstep, -⟩ := steps_eq_append_cons hscan
  refine ⟨taken.flatMap Step.text, c, cs, hsource, ?_, ?_⟩
  · rw [hstep, step_start, Nat.zero_add]
  · rw [hstep]
    exact meetsHole_step _ _ c cs

/-- A backslash before the end of a line is a hole of the string that it stands in. -/
theorem scan_meets_holes_backslash :
    step 1 ⟨[.string]⟩ '\\' ['\n'] ∈ scan {} ['"', '\\', '\n'] ∧
      ∃ before c cs, ['"', '\\', '\n'] = before ++ c :: cs ∧
        (step 1 ⟨[.string]⟩ '\\' ['\n']).start = Text.width before ∧
        (step 1 ⟨[.string]⟩ '\\' ['\n']).MeetsHole c cs := by
  have hnone : Pattern.unterminatedString.match? ['"', '\\', '\n'] = none := by decide +kernel
  have hmem : step 1 ⟨[.string]⟩ '\\' ['\n'] ∈ scan {} ['"', '\\', '\n'] := by
    rw [scan, steps_cons, step_root_open rfl 0 hnone]
    apply List.mem_cons_of_mem
    change _ ∈ steps 1 ⟨[.string]⟩ ['\\', '\n']
    rw [steps_cons]
    exact List.mem_cons_self
  exact ⟨hmem, scan_meets_holes {} _ _ hmem⟩

end Tokenizer
