import Tokenizer.Proofs.ClosingEdit
import Tokenizer.Proofs.Splice

/-!
The edit that escapes the backslash of an unknown escape. The two backslashes are an escape, and
the character after them is text of the string, one with the text that follows it. All other
faults stay, and those that come after the backslash move by one byte.
-/
namespace Tokenizer

open CharClass

/-! ### Unknown escapes of a scan -/

theorem Diagnostic.cause_unclosed_ne (span : Span) (region : Region) (c : Char) :
    (unclosed span region).cause ≠ .invalidEscape c := by
  cases region <;> simp [unclosed, unterminatedString, unterminatedComment, unterminatedDocComment]

theorem Diagnostic.of_ofToken?_invalidEscape {mode : Mode} {opened : Nat} {t : Token}
    {d : Diagnostic} {c : Char} (h : ofToken? mode opened t = some d)
    (hcause : d.cause = .invalidEscape c) : t.category = .stringEscapeInvalid := by
  unfold ofToken? at h
  split at h
  case h_3 hcategory => exact hcategory
  case h_5 =>
    obtain rfl := Option.some.inj h
    split at hcause <;> simp [unrecognizedCharacter, withContext] at hcause
  case h_6 => simp at h
  all_goals
    obtain rfl := Option.some.inj h
    simp [unterminatedString, invalidCharLiteral, nestedDocComment] at hcause

/-- An unknown escape stands in a string, and its fault names the place of its backslash. -/
theorem exists_escape_of_mem_diagnose {source : List Char} {e : Diagnostic} {c : Char}
    (he : e ∈ diagnose source) (hcause : e.cause = .invalidEscape c) :
    ∃ before after d ws, source = before.flatMap Step.text ++ '\\' :: d :: ws ∧
      scan {} source = before ++ after ∧ (endModes {} before).top = .inside .string ∧
      isLineBreak d = false ∧ Pattern.escape.match? ('\\' :: d :: ws) = none ∧
      e = .invalidEscape ⟨Text.width (before.flatMap Step.text),
        Text.width (before.flatMap Step.text) + Text.width ['\\', d]⟩ d (openedFrom 0 before) := by
  have hmem : e ∈ Diagnostic.ofSteps 0 (scan {} source) := by
    rcases List.mem_append.1 he with hmem | hmem
    · exact hmem
    · obtain ⟨region, -, rfl⟩ := Option.map_eq_some_iff.1 (Option.mem_toList.1 hmem)
      exact absurd hcause (Diagnostic.cause_unclosed_ne _ region c)
  obtain ⟨before, s, after, hscan, t, ht, htoken⟩ := Diagnostic.exists_step_of_mem_ofSteps hmem
  have hcategory := Diagnostic.of_ofToken?_invalidEscape htoken hcause
  obtain ⟨b, rest, hsource, rfl, -⟩ := steps_eq_append_cons hscan
  rw [Nat.zero_add] at hscan ht htoken
  obtain ⟨htop, d, ws, rfl, rfl, hd, hstep, rfl⟩ := step_of_stringEscapeInvalid ht hcategory
  refine ⟨before, _, d, ws, hsource, hscan, htop, hd, ?_, ?_⟩
  · cases hm : Pattern.escape.match? ('\\' :: d :: ws) with
    | none => rfl
    | some m =>
      rw [step_string_escape htop _ hm] at hstep
      simp at hstep
  · rw [openedAt_of_inside htop] at htoken
    exact (Option.some.inj htoken).symm

/-! ### The edit and what stands before it -/

section
variable {d : Char} {ws : List Char} (hd : isLineBreak d = false)
  (hescape : Pattern.escape.match? ('\\' :: d :: ws) = none)
include hescape

theorem ne_of_escape_eq_none : d ≠ '\\' ∧ d ≠ '"' ∧ d ≠ '\'' := by
  refine ⟨?_, ?_, ?_⟩ <;> rintro rfl <;> exact Option.some_ne_none _ hescape

include hd in
theorem isStringPlain_of_escape_eq_none : isStringPlain d = true := by
  obtain ⟨hback, hquote, -⟩ := ne_of_escape_eq_none hescape
  simp [isStringPlain, hback, hquote, hd]

theorem keeps_charEscape_backslash :
    Pattern.charEscapeLiteral.Keeps ['\''] ('\\' :: d :: ws) ('\\' :: '\\' :: d :: ws) := by
  obtain ⟨-, -, hquote⟩ := ne_of_escape_eq_none hescape
  have hnew : Pattern.escape.match? ('\\' :: '\\' :: d :: ws) =
      some ⟨['\\', '\\'], d :: ws⟩ := rfl
  apply Pattern.keeps_of_eq_none
  · simp [Pattern.charEscapeLiteral, Pattern.singleQuote, hescape]
  · simp [Pattern.charEscapeLiteral, Pattern.singleQuote, hnew, hquote, Match.append]

include hd in
/-- The second backslash is not seen from before the first one. -/
theorem replaces_escaped_backslash :
    Replaces ('\\' :: '\\' :: d :: ws) ('\\' :: d :: ws) := by
  have hplain := isStringPlain_of_escape_eq_none hd hescape
  refine replaces_of_keeps (.inr rfl) (by simp) (keeps_charEscape_backslash hescape) ?_
  obtain ⟨mid, tail, rfl, hmid, htail⟩ := exists_stringBody ws
  apply Pattern.keeps_unterminatedString
  · intro body hbody
    have hold : StringBody (body ++ '\\' :: d :: mid) := hbody.append (.escaped hd hmid)
    have hnew : StringBody (body ++ '\\' :: '\\' :: d :: mid) :=
      hbody.append (.escaped rfl (.plain hplain hmid))
    exact Pattern.keeps_of_stringStop htail hold hnew (by simp)
  · -- a backslash before the first one pairs with it, and the second one is left to `d`
    intro body hbody
    have hold : StringBody (body ++ ['\\'] ++ '\\' :: d :: mid) := by
      rw [List.append_assoc]
      exact hbody.append (.escaped rfl (.plain hplain hmid))
    have hnew : StringBody (body ++ ['\\'] ++ '\\' :: '\\' :: d :: mid) := by
      rw [List.append_assoc]
      exact hbody.append (.escaped rfl (.escaped hd hmid))
    exact Pattern.keeps_of_stringStop htail hold hnew (by simp)

end

/-! ### The edit and what stands behind it -/

theorem step_string_backslashes {modes : ModeStack} (htop : modes.top = .inside .string)
    (start : Nat) (cs : List Char) :
    step start modes '\\' ('\\' :: cs) =
      ⟨start, modes, some ⟨"string.escape", .escape, .emit .stringEscape, .stay⟩, ['\\', '\\'],
        cs⟩ := by
  have hmatch : Pattern.escape.match? ('\\' :: '\\' :: cs) = some ⟨['\\', '\\'], cs⟩ := rfl
  rw [step_string_escape htop start hmatch]

section
variable {modes : ModeStack} {d : Char} {ws : List Char} (htop : modes.top = .inside .string)
  (hescape : Pattern.escape.match? ('\\' :: d :: ws) = none)
include htop hescape

theorem isFiller_of_escape_eq_none : modes.top.isFiller d = true := by
  obtain ⟨hback, hquote, -⟩ := ne_of_escape_eq_none hescape
  simp [htop, Mode.isFiller, hback, hquote]

/-- Behind the two backslashes the character is text, and goes on with the text after it. -/
theorem faultsFrom_escaped_backslash (opened start : Nat) :
    faultsFrom opened start modes ('\\' :: '\\' :: d :: ws) =
      faultsFrom opened (1 + (start + Text.width ['\\', d])) modes ws := by
  have hfiller := isFiller_of_escape_eq_none htop hescape
  have hwidth : start + Text.width ['\\', '\\'] + d.utf8Size =
      1 + (start + Text.width ['\\', d]) := by
    have hback : '\\'.utf8Size = 1 := rfl
    simp only [Text.width_cons, Text.width_nil, hback]
    omega
  rw [faultsFrom_cons (step_string_backslashes htop start (d :: ws)) rfl,
    Step.tokens_of_emit rfl rfl, faultsFrom_filler hfiller, ← hwidth]
  rfl

theorem finalModes_escaped_backslash :
    finalModes modes ('\\' :: '\\' :: d :: ws) = finalModes modes ws := by
  have hfiller := isFiller_of_escape_eq_none htop hescape
  rw [finalModes_cons 0, step_string_backslashes htop]
  change finalModes modes (d :: ws) = _
  rw [finalModes_filler, finalModes_filler modes ws, List.dropWhile_cons_of_pos hfiller]

variable (hd : isLineBreak d = false)
include hd

theorem faultsFrom_unknown_escape (opened start : Nat) :
    faultsFrom opened start modes ('\\' :: d :: ws) =
      .invalidEscape ⟨start, start + Text.width ['\\', d]⟩ d opened ::
        faultsFrom opened (start + Text.width ['\\', d]) modes ws := by
  rw [faultsFrom_cons (step_string_escape_invalid htop start hd hescape) rfl,
    Step.tokens_of_emit rfl rfl]
  rfl

theorem finalModes_unknown_escape : finalModes modes ('\\' :: d :: ws) = finalModes modes ws := by
  rw [finalModes_cons 0, step_string_escape_invalid htop 0 hd hescape]
  rfl

end

/-! ### The faults of the source -/

/-- Where an offset of a source lies after a byte has been put in behind the one at `p`. -/
def movedPast (p x : Nat) : Nat := if x ≤ p then x else x + 1

theorem movedPast_of_le {p x : Nat} (h : x ≤ p) : movedPast p x = x := if_pos h

theorem movedPast_of_lt {p x : Nat} (h : p < x) : movedPast p x = 1 + x := by
  rw [movedPast, if_neg (by omega), Nat.add_comm]

theorem stop_le_of_scan {source : List Char} {before after : List Step}
    (hscan : scan {} source = before ++ after) :
    ∀ s ∈ before, s.text ≠ [] ∧ s.stop ≤ Text.width (before.flatMap Step.text) := by
  intro s hs
  obtain ⟨front, back, rfl⟩ := List.append_of_mem hs
  rw [List.append_assoc, List.cons_append] at hscan
  obtain ⟨c, rest, -, hstep, -⟩ := steps_eq_append_cons hscan
  have hstart : s.start = Text.width (front.flatMap Step.text) := by
    rw [hstep, step_start, Nat.zero_add]
  refine ⟨?_, ?_⟩
  · rw [hstep]
    exact step_text_ne_nil _ _ c rest
  · rw [Step.stop, hstart, List.flatMap_append, List.flatMap_cons, Text.width_append,
      Text.width_append]
    omega

/-- What lies before the byte keeps its place. -/
theorem ofSteps_movedPast {source : List Char} {before after : List Step}
    (hscan : scan {} source = before ++ after) :
    (Diagnostic.ofSteps 0 before).map
        (Diagnostic.relocate (movedPast (Text.width (before.flatMap Step.text)))) =
      Diagnostic.ofSteps 0 before ∧
    movedPast (Text.width (before.flatMap Step.text)) (openedFrom 0 before) =
      openedFrom 0 before := by
  have hkeep : ∀ s ∈ before, s.text ≠ [] ∧ ∀ x, s.start ≤ x → x ≤ s.stop →
      movedPast (Text.width (before.flatMap Step.text)) x = 0 + x := by
    intro s hs
    obtain ⟨hne, hstop⟩ := stop_le_of_scan hscan s hs
    refine ⟨hne, ?_⟩
    intro x _ hx
    rw [movedPast_of_le (hx.trans hstop), Nat.zero_add]
  have hzero : movedPast (Text.width (before.flatMap Step.text)) 0 = 0 :=
    movedPast_of_le (Nat.zero_le _)
  have hshift : before.map (Step.shift 0) = before := by
    exact List.map_id'' (fun s => by simp [Step.shift]) before
  obtain ⟨hfaults, hopened⟩ := Diagnostic.ofSteps_relocate hkeep 0
  rw [hzero, hshift] at hfaults hopened
  exact ⟨hfaults.symm, hopened.symm⟩

theorem notMem_ofSteps {source : List Char} {before after : List Step} {e : Diagnostic}
    (hscan : scan {} source = before ++ after)
    (he : Text.width (before.flatMap Step.text) ≤ e.span.start) :
    e ∉ Diagnostic.ofSteps 0 before := by
  intro hmem
  obtain ⟨front, s, back, hbefore, t, ht, htoken⟩ := Diagnostic.exists_step_of_mem_ofSteps hmem
  obtain ⟨hne, hstop⟩ := stop_le_of_scan hscan s (by simp [hbefore])
  have hlaid := s.laidFrom_tokens hne
  have hlt := hlaid.nonempty t ht
  have hwithin := hlaid.within t ht
  rw [s.flatMap_text_tokens] at hwithin
  rw [(Diagnostic.of_ofToken?_eq_some htoken).2] at he
  change _ ≤ t.start at he
  change s.start + Text.width s.text ≤ _ at hstop
  omega

section
variable {before after : List Step} {d : Char} {ws : List Char}
  (hscan : scan {} (before.flatMap Step.text ++ '\\' :: d :: ws) = before ++ after)
  (htop : (endModes {} before).top = .inside .string)
  (hescape : Pattern.escape.match? ('\\' :: d :: ws) = none) (hd : isLineBreak d = false)
include hscan htop hescape hd

theorem diagnose_unknown_escape :
    ∃ later,
      diagnose (before.flatMap Step.text ++ '\\' :: d :: ws) = Diagnostic.ofSteps 0 before ++
        .invalidEscape ⟨Text.width (before.flatMap Step.text),
          Text.width (before.flatMap Step.text) + Text.width ['\\', d]⟩ d (openedFrom 0 before) ::
            later ∧
      diagnose (before.flatMap Step.text ++ '\\' :: '\\' :: d :: ws) =
        Diagnostic.ofSteps 0 before ++ later.map
          (Diagnostic.relocate (movedPast (Text.width (before.flatMap Step.text)))) := by
  have hreplaces := replaces_escaped_backslash hd hescape
  have hmoved (x : Nat)
      (hx : Text.width (before.flatMap Step.text) + Text.width ['\\', d] ≤ x) :
      movedPast (Text.width (before.flatMap Step.text)) x = 1 + x := by
    have hpos := Text.width_pos (List.cons_ne_nil '\\' [d])
    exact movedPast_of_lt (by omega)
  refine ⟨faultsFrom (openedFrom 0 before)
    (Text.width (before.flatMap Step.text) + Text.width ['\\', d]) (endModes {} before) ws, ?_, ?_⟩
  · rw [diagnose_of_replaces (replaces_refl _) hscan, faultsFrom_unknown_escape htop hescape hd]
  · rw [diagnose_of_replaces hreplaces hscan, faultsFrom_escaped_backslash htop hescape,
      ← faultsFrom_relocate hmoved, (ofSteps_movedPast hscan).2]

theorem finalModes_of_escaped_backslash :
    finalModes {} (before.flatMap Step.text ++ '\\' :: '\\' :: d :: ws) =
      finalModes {} (before.flatMap Step.text ++ '\\' :: d :: ws) := by
  have hreplaces := replaces_escaped_backslash hd hescape
  rw [finalModes_of_replaces hreplaces hscan, finalModes_of_replaces (replaces_refl _) hscan,
    finalModes_escaped_backslash htop hescape, finalModes_unknown_escape htop hescape hd]

end

/--
The edit that is suggested for an unknown escape doubles its backslash. That removes this fault and
no other, adds none, and moves the rest of the source by one byte.
-/
theorem escaping_backslash_edit_removes {source : List Char} {e : Diagnostic} {c : Char}
    (he : e ∈ diagnose source) (hcause : e.cause = .invalidEscape c) :
    ∃ edit fixed, e.suggestions.filterMap Suggestion.edit? = [edit] ∧
      edit = ⟨⟨e.span.start, e.span.start + 1⟩, ['\\', '\\']⟩ ∧
      edit.apply? source = some fixed ∧
      diagnose fixed =
        ((diagnose source).erase e).map (Diagnostic.relocate (movedPast e.span.start)) ∧
      finalModes {} fixed = finalModes {} source := by
  obtain ⟨before, after, d, ws, rfl, hscan, htop, hd, hescape, rfl⟩ :=
    exists_escape_of_mem_diagnose he hcause
  refine ⟨_, before.flatMap Step.text ++ '\\' :: '\\' :: d :: ws, rfl, rfl, ?_, ?_,
    finalModes_of_escaped_backslash hscan htop hescape hd⟩
  · exact Edit.apply?_append (before.flatMap Step.text) ['\\'] (d :: ws) ['\\', '\\']
  · obtain ⟨later, hsource, hfixed⟩ := diagnose_unknown_escape hscan htop hescape hd
    rw [hfixed, hsource, List.erase_append_right _ (notMem_ofSteps hscan (Nat.le_refl _)),
      List.erase_cons_head, List.map_append]
    exact congrArg (· ++ _) (ofSteps_movedPast hscan).1.symm

/-- An escape with too few digits, between another unknown escape and a stray quote. -/
theorem escaping_backslash_edit_removes_short_code :
    .invalidEscape ⟨4, 6⟩ 'u' 0 ∈ diagnose ['"', '\\', 'é', '\\', 'u', '1', '2', '"', '\''] ∧
      ∃ fixed,
        Edit.apply? ⟨⟨4, 5⟩, ['\\', '\\']⟩ ['"', '\\', 'é', '\\', 'u', '1', '2', '"', '\''] =
          some fixed ∧
        diagnose fixed = ((diagnose ['"', '\\', 'é', '\\', 'u', '1', '2', '"', '\'']).erase
          (.invalidEscape ⟨4, 6⟩ 'u' 0)).map (Diagnostic.relocate (movedPast 4)) ∧
        finalModes {} fixed = finalModes {} ['"', '\\', 'é', '\\', 'u', '1', '2', '"', '\''] := by
  have he : .invalidEscape ⟨4, 6⟩ 'u' 0 ∈
      diagnose ['"', '\\', 'é', '\\', 'u', '1', '2', '"', '\''] := by
    decide +kernel
  obtain ⟨edit, fixed, -, rfl, hfixed, hfaults, hmodes⟩ := escaping_backslash_edit_removes he rfl
  exact ⟨he, fixed, hfixed, hfaults, hmodes⟩

end Tokenizer
