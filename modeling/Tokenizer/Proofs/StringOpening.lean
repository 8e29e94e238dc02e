import Tokenizer.Proofs.StringBody

/-!
How a string starts. At a double quote in code the rest of the line decides: a quote further on
closes the string, a line without one is an unterminated string, and a backslash at the end of the
line leaves the string open. What the opening quote sees ahead is what is read inside the string.
-/
namespace Tokenizer

open CharClass

inductive StringUnit where
  /-- A backslash and the character after it. -/
  | escaped (c : Char)
  /-- A character that is no backslash. -/
  | bare (c : Char)
  /-- A backslash that no character follows. -/
  | dangling
deriving DecidableEq, Repr

def StringUnit.text : StringUnit → List Char
  | escaped c => ['\\', c]
  | bare c => [c]
  | dangling => ['\\']

def stringUnits : List Char → List StringUnit
  | [] => []
  | c :: cs =>
    if c = '\\' then
      match cs with
      | [] => [.dangling]
      | d :: ds => .escaped d :: stringUnits ds
    else
      .bare c :: stringUnits cs

theorem flatMap_text_stringUnits (cs : List Char) :
    (stringUnits cs).flatMap StringUnit.text = cs := by
  fun_induction stringUnits cs with
  | case1 => rfl
  | case2 => rfl
  | case3 d ds ih => simp [StringUnit.text, ih]
  | case4 c cs _ ih => simp [StringUnit.text, ih]

/-- Only the last unit can be a dangling backslash. -/
theorem eq_nil_of_stringUnits_eq {cs : List Char} {front back : List StringUnit}
    (h : stringUnits cs = front ++ .dangling :: back) : back = [] := by
  fun_induction stringUnits cs generalizing front with
  | case1 => simp at h
  | case2 =>
    cases front with
    | nil => simpa using h.symm
    | cons u front => simp at h
  | case3 d ds ih =>
    cases front with
    | nil => simp at h
    | cons u front => exact ih (List.cons.inj h).2
  | case4 c cs _ ih =>
    cases front with
    | nil => simp at h
    | cons u front => exact ih (List.cons.inj h).2

theorem dangling_notMem_of_stringUnits_eq {cs : List Char} {front back : List StringUnit}
    {u : StringUnit} (h : stringUnits cs = front ++ u :: back) : .dangling ∉ front := by
  intro hmem
  obtain ⟨xs, ys, rfl⟩ := List.append_of_mem hmem
  rw [List.append_assoc, List.cons_append] at h
  have hnil := eq_nil_of_stringUnits_eq h
  simp at hnil

theorem ne_backslash_of_bare_mem {cs : List Char} {c : Char} (h : .bare c ∈ stringUnits cs) :
    c ≠ '\\' := by
  fun_induction stringUnits cs with
  | case1 => simp at h
  | case2 => simp at h
  | case3 d ds ih => exact ih (by simpa using h)
  | case4 d cs hd ih =>
    rcases List.mem_cons.1 h with h | h
    · obtain rfl : c = d := by simpa using h
      exact hd
    · exact ih h

/-- Units of one line, without a bare quote and a dangling backslash, are text of a string. -/
theorem stringBody_of_stringUnits_eq {cs : List Char} (hcs : ∀ c ∈ cs, isLineBreak c = false)
    {front back : List StringUnit} (h : stringUnits cs = front ++ back)
    (hquote : .bare '"' ∉ front) (hdangling : .dangling ∉ front) :
    StringBody (front.flatMap StringUnit.text) := by
  have hmem : ∀ u ∈ front, u ∈ stringUnits cs := by
    intro u hu
    rw [h]
    exact List.mem_append_left _ hu
  have hbreak : ∀ u ∈ front, ∀ c ∈ u.text, isLineBreak c = false := by
    intro u hu c hc
    apply hcs c
    rw [← flatMap_text_stringUnits cs]
    exact List.mem_flatMap.2 ⟨u, hmem u hu, hc⟩
  clear h
  induction front with
  | nil => exact .nil
  | cons u front ih =>
    obtain ⟨hu, hfront⟩ := List.forall_mem_cons.1 hmem
    obtain ⟨hcu, hcfront⟩ := List.forall_mem_cons.1 hbreak
    obtain ⟨hqu, hqfront⟩ := not_or.1 (mt List.mem_cons.2 hquote)
    obtain ⟨hdu, hdfront⟩ := not_or.1 (mt List.mem_cons.2 hdangling)
    have hbody := ih hqfront hdfront hfront hcfront
    cases u with
    | escaped c => exact hbody.escaped (hcu c (by simp [StringUnit.text]))
    | bare c =>
      have hback := ne_backslash_of_bare_mem hu
      have hne : c ≠ '"' := fun h => hqu (h ▸ rfl)
      have hbreak := hcu c (by simp [StringUnit.text])
      exact hbody.plain (by simp [isStringPlain, hback, hne, hbreak])
    | dangling => exact absurd rfl hdu

/-! ### The quote -/

/-- A text up to where its line ends, a quote closes it or a backslash dangles. -/
theorem match?_unterminatedString {body tail : List Char} (hbody : StringBody body)
    (htail : ∀ z ∈ tail.head?, isStringPlain z = false)
    (hstop : Pattern.stringUnit.match? tail = none) :
    Pattern.unterminatedString.match? ('"' :: (body ++ tail)) =
      if tail.head?.any (!isLineBreak ·) then none else some ⟨'"' :: body, tail⟩ := by
  have hmany := Pattern.match?_many_stringUnit hbody htail hstop
  change ((Pattern.char '"' ++ Pattern.many Pattern.stringUnit) ++
    Pattern.notBefore (!isLineBreak ·)).match? _ = _
  simp only [Pattern.match?_append, Pattern.match?_char_cons, ↓reduceIte, Option.bind_some, hmany,
    Option.map_some, Match.append, Pattern.match?_notBefore]
  split <;> simp [Match.append]

theorem match?_unterminatedString_line {body tail : List Char} (hbody : StringBody body)
    (htail : ∀ c ∈ tail.head?, isLineBreak c = true) :
    Pattern.unterminatedString.match? ('"' :: (body ++ tail)) = some ⟨'"' :: body, tail⟩ := by
  rw [match?_unterminatedString hbody]
  · cases tail with
    | nil => rfl
    | cons b tail => simp [htail b rfl]
  · intro z hz
    simp [isStringPlain, htail z hz]
  · exact Pattern.match?_stringUnit_of_isLineBreak htail

theorem match?_unterminatedString_closed {body : List Char} (hbody : StringBody body)
    (zs : List Char) : Pattern.unterminatedString.match? ('"' :: (body ++ '"' :: zs)) = none := by
  rw [match?_unterminatedString hbody]
  · rfl
  · rintro z ⟨⟩
    rfl
  · rfl

section
variable {modes : ModeStack} (htop : modes.top = .root)
include htop

theorem first?_root_quote (cs : List Char) :
    Rule.first? modes.top.rules ('"' :: cs) =
      Rule.first? [⟨"string.unterminated", .unterminatedString, .emit .stringInvalid, .stay⟩,
        ⟨"string.open", .doubleQuote, .emit .string, .push .string⟩] ('"' :: cs) := by
  rw [htop, ← Rule.first?_filter_canStart]
  rfl

theorem step_root_open (start : Nat) {cs : List Char}
    (h : Pattern.unterminatedString.match? ('"' :: cs) = none) :
    step start modes '"' cs =
      ⟨start, modes, some ⟨"string.open", .doubleQuote, .emit .string, .push .string⟩, ['"'],
        cs⟩ := by
  have hnone : Rule.match? ⟨"string.unterminated", .unterminatedString, .emit .stringInvalid,
      .stay⟩ ('"' :: cs) = none := by
    simp [Rule.match?, h]
  have hopen : Rule.match? ⟨"string.open", .doubleQuote, .emit .string, .push .string⟩
      ('"' :: cs) = some ⟨['"'], cs⟩ := by
    simp [Rule.match?_eq_some_iff, Pattern.doubleQuote]
  exact step_of_first? ((first?_root_quote htop cs).trans
    ((Rule.first?_cons_of_eq_none hnone _).trans (Rule.first?_cons_of_match? hopen _))) start

theorem step_root_unterminated (start : Nat) {cs : List Char} {m : Match}
    (h : Pattern.unterminatedString.match? ('"' :: cs) = some m) (hm : m.text ≠ []) :
    step start modes '"' cs =
      ⟨start, modes, some ⟨"string.unterminated", .unterminatedString, .emit .stringInvalid,
        .stay⟩, m.text, m.rest⟩ := by
  have hsome : Rule.match? ⟨"string.unterminated", .unterminatedString, .emit .stringInvalid,
      .stay⟩ ('"' :: cs) = some m :=
    Rule.match?_eq_some_iff.2 ⟨h, hm⟩
  exact step_of_first? ((first?_root_quote htop cs).trans
    (Rule.first?_cons_of_match? hsome _)) start

end

structure Step.OpensString (s : Step) : Prop where
  tokens_eq : s.tokens = [⟨.string, s.start, ['"']⟩]
  after_eq : s.after = s.modes.enter .string

section
variable {modes : ModeStack} (htop : modes.top = .root) (start : Nat) {body : List Char}
  (hbody : StringBody body)
include htop hbody

/-- A quote after text of a string closes the string. -/
theorem steps_string_closed (zs : List Char) {s : Step}
    (hs : s = step start modes '"' (body ++ '"' :: zs)) :
    s.OpensString ∧
      ∃ inner close tail, steps s.stop s.after s.rest = inner ++ close :: tail ∧
        (∀ u ∈ inner, u.ReadsString s.after) ∧ close.modes = s.after ∧ close.after = s.modes ∧
        close.tokens = [⟨.string, s.start + 1 + Text.width body, ['"']⟩] := by
  have hnone := match?_unterminatedString_closed hbody zs
  have hinside : (modes.enter .string).top = .inside .string := rfl
  obtain ⟨inner, hsteps, hinner⟩ :=
    steps_string_body hinside (start + 1) hbody (Or.inl rfl : '"' = '"' ∨ _) zs
  have hclose := step_string_close hinside (start + 1 + Text.width body) zs
  rw [steps_cons, hclose] at hsteps
  rw [hs, step_root_open htop start hnone]
  refine ⟨⟨Step.tokens_of_emit rfl rfl, rfl⟩, inner, _, _, hsteps, hinner, rfl, rfl, ?_⟩
  exact Step.tokens_of_emit rfl rfl

/-- Text of a string up to the end of its line is unterminated. -/
theorem step_string_unterminated {tail : List Char}
    (htail : ∀ c ∈ tail.head?, isLineBreak c = true) {s : Step}
    (hs : s = step start modes '"' (body ++ tail)) :
    s.tokens = [⟨.stringInvalid, s.start, '"' :: body⟩] ∧ s.after = s.modes := by
  rw [hs, step_root_unterminated htop start (match?_unterminatedString_line hbody htail) (by simp)]
  exact ⟨Step.tokens_of_emit rfl rfl, rfl⟩

/-- A backslash that dangles after text of a string leaves the string open. -/
theorem steps_string_dangling {tail : List Char}
    (htail : ∀ c ∈ tail.head?, isLineBreak c = true) {s : Step}
    (hs : s = step start modes '"' (body ++ '\\' :: tail)) :
    s.OpensString ∧
      ∃ inner bad rest, steps s.stop s.after s.rest = inner ++ bad :: rest ∧
        (∀ u ∈ inner, u.ReadsString s.after) ∧ bad.modes = s.after ∧ bad.after = s.after ∧
        bad.tokens = [⟨.invalid, s.start + 1 + Text.width body, ['\\']⟩] := by
  have hnone : Pattern.unterminatedString.match? ('"' :: (body ++ '\\' :: tail)) = none := by
    rw [match?_unterminatedString hbody]
    · rfl
    · rintro z ⟨⟩
      rfl
    · exact Pattern.match?_stringUnit_dangling htail
  have hinside : (modes.enter .string).top = .inside .string := rfl
  obtain ⟨inner, hsteps, hinner⟩ :=
    steps_string_body hinside (start + 1) hbody (Or.inr rfl : _ ∨ '\\' = '\\') tail
  have hbad := step_string_dangling hinside (start + 1 + Text.width body) htail
  rw [steps_cons, hbad] at hsteps
  rw [hs, step_root_open htop start hnone]
  exact ⟨⟨Step.tokens_of_emit rfl rfl, rfl⟩, inner, _, _, hsteps, hinner, rfl, rfl, rfl⟩

end

/-! ### Every string of a scan -/

def restOfLine (cs : List Char) : List Char := cs.takeWhile (!isLineBreak ·)

/-- A step at a place of the source where a character `c` stands reads from there on. -/
theorem eq_step_of_scan {modes : ModeStack} {source xs ys : List Char} {c : Char}
    {before after : List Step} {s : Step} (hscan : scan modes source = before ++ s :: after)
    (hsource : source = xs ++ c :: ys) (hstart : s.start = Text.width xs) :
    s = step s.start s.modes c ys ∧ after = steps s.stop s.after s.rest := by
  obtain ⟨d, rest, hsplit, hs, hafter⟩ := steps_eq_append_cons hscan
  have hwidth : s.start = Text.width (before.flatMap Step.text) := by
    rw [hs, step_start, Nat.zero_add]
  have hmodes : s.modes = endModes modes before := by
    rw [hs, step_modes]
  -- both divisions of the source are its cut at the start of the step
  have hcut : some (xs, c :: ys) = some (before.flatMap Step.text, d :: rest) := by
    rw [← Text.cut?_width_append, ← Text.cut?_width_append, ← hstart, ← hwidth, ← hsource, hsplit]
  obtain ⟨-, rfl, rfl⟩ : xs = before.flatMap Step.text ∧ c = d ∧ ys = rest := by simpa using hcut
  rw [Nat.zero_add, ← hwidth, ← hmodes] at hs
  exact ⟨hs, hafter⟩

/--
What the scan makes of a double quote in code agrees with the units of the rest of its line. The
first bare quote closes the string, a line without one is unterminated, and a backslash that
dangles at the end of the line leaves the string open.
-/
theorem scan_string_opening {modes : ModeStack} {source pre rest : List Char}
    {before after : List Step} {s : Step} (hscan : scan modes source = before ++ s :: after)
    (hroot : s.mode = .root) (hsource : source = pre ++ '"' :: rest)
    (hstart : s.start = Text.width pre) :
    (∀ front back, stringUnits (restOfLine rest) = front ++ .bare '"' :: back →
      .bare '"' ∉ front →
        s.OpensString ∧
          ∃ inner close tail, after = inner ++ close :: tail ∧
            (∀ u ∈ inner, u.ReadsString s.after) ∧ close.modes = s.after ∧
            close.after = s.modes ∧
            close.tokens =
              [⟨.string, s.start + 1 + Text.width (front.flatMap StringUnit.text), ['"']⟩]) ∧
    (.bare '"' ∉ stringUnits (restOfLine rest) → .dangling ∉ stringUnits (restOfLine rest) →
      s.tokens = [⟨.stringInvalid, s.start, '"' :: restOfLine rest⟩] ∧ s.after = s.modes) ∧
    (.bare '"' ∉ stringUnits (restOfLine rest) → .dangling ∈ stringUnits (restOfLine rest) →
      s.OpensString ∧
        ∃ body inner bad tail, restOfLine rest = body ++ ['\\'] ∧ after = inner ++ bad :: tail ∧
          (∀ u ∈ inner, u.ReadsString s.after) ∧ bad.modes = s.after ∧ bad.after = s.after ∧
          bad.tokens = [⟨.invalid, s.start + 1 + Text.width body, ['\\']⟩]) := by
  obtain ⟨hs, hafter⟩ := eq_step_of_scan hscan hsource hstart
  have hline : ∀ c ∈ restOfLine rest, isLineBreak c = false := by
    intro c hc
    simpa using List.mem_takeWhile_imp hc
  have htail : ∀ c ∈ (rest.dropWhile (!isLineBreak ·)).head?, isLineBreak c = true := by
    intro c hc
    have hnot := List.head?_dropWhile_not (!isLineBreak ·) rest
    rw [Option.mem_def.1 hc] at hnot
    simpa using hnot
  have hrest : restOfLine rest ++ rest.dropWhile (!isLineBreak ·) = rest :=
    List.takeWhile_append_dropWhile
  have htext := flatMap_text_stringUnits (restOfLine rest)
  refine ⟨?_, ?_, ?_⟩
  · intro front back hunits hquote
    have hdangling := dangling_notMem_of_stringUnits_eq hunits
    have hbody := stringBody_of_stringUnits_eq hline hunits hquote hdangling
    rw [hunits, List.flatMap_append, List.flatMap_cons] at htext
    rw [← hrest, ← htext, List.append_assoc, List.append_assoc] at hs
    rw [hafter]
    exact steps_string_closed hroot s.start hbody _ hs
  · intro hquote hdangling
    have hbody := stringBody_of_stringUnits_eq hline (List.append_nil _).symm hquote hdangling
    rw [htext] at hbody
    rw [← hrest] at hs
    exact step_string_unterminated hroot s.start hbody htail hs
  · intro hquote hdangling
    obtain ⟨front, back, hunits⟩ := List.append_of_mem hdangling
    obtain rfl := eq_nil_of_stringUnits_eq hunits
    have hfront := dangling_notMem_of_stringUnits_eq hunits
    rw [hunits] at hquote
    have hbody :=
      stringBody_of_stringUnits_eq hline hunits (fun h => hquote (List.mem_append_left _ h)) hfront
    rw [hunits, List.flatMap_append] at htext
    rw [← hrest, ← htext, List.append_assoc] at hs
    rw [hafter]
    obtain ⟨hopen, inner, bad, tail, h⟩ := steps_string_dangling hroot s.start hbody htail hs
    exact ⟨hopen, _, inner, bad, tail, htext.symm, h⟩

theorem scan_string_escaped_quote :
    (step 0 {} '"' ['\\', '"', 'é', '"', '+']).OpensString ∧
      ∃ inner close tail,
        scan {} ['"', '\\', '"', 'é', '"', '+'] =
          step 0 {} '"' ['\\', '"', 'é', '"', '+'] :: (inner ++ close :: tail) ∧
        close.after = ({} : ModeStack) ∧ close.tokens = [⟨.string, 5, ['"']⟩] := by
  obtain ⟨s, hs⟩ : ∃ s, s = step 0 {} '"' ['\\', '"', 'é', '"', '+'] := ⟨_, rfl⟩
  have hscan : scan {} ['"', '\\', '"', 'é', '"', '+'] =
      [] ++ s :: steps s.stop s.after s.rest := by
    rw [hs]
    exact steps_cons ..
  have hmodes : s.modes = {} := by rw [hs, step_modes]
  have hstart : s.start = Text.width [] := by rw [hs, step_start, Text.width_nil]
  have hroot : s.mode = .root := by
    rw [Step.mode, hmodes]
    rfl
  have hstring := scan_string_opening hscan hroot rfl hstart
  obtain ⟨hopen, inner, close, tail, hafter, -, -, hclose, htokens⟩ :=
    hstring.1 [.escaped '"', .bare 'é'] [.bare '+'] (by decide) (by decide)
  rw [hafter] at hscan
  rw [hmodes] at hclose
  rw [hstart] at htokens
  rw [← hs]
  exact ⟨hopen, inner, close, tail, hscan, hclose, htokens⟩

end Tokenizer
