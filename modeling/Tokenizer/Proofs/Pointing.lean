import Tokenizer.Diagnostic.Report
import Tokenizer.Proofs.ClosingEdit
import Tokenizer.Proofs.Safety

/-!
What reports point at. Spans count bytes and reports count characters. Counting the characters that
start before a byte turns one into the other, so that a report points at the characters which the
span of its fault covers, and at one of them at least.
-/
namespace Tokenizer

/-! ### Characters before a byte -/

namespace Text

theorem charsBefore_eq_countP (n : Nat) (cs : List Char) :
    charsBefore n cs = (List.range cs.length).countP fun i => width (cs.take i) < n := by
  induction cs generalizing n with
  | nil => cases n <;> rfl
  | cons c cs ih =>
    have hpos := c.utf8Size_pos
    -- the first character starts at byte 0, and the others by its width later
    have hlater : ∀ i, decide (width ((c :: cs).take (i + 1)) < n) =
        decide (width (cs.take i) < n - c.utf8Size) := by
      intro i
      rw [List.take_succ_cons, width_cons, decide_eq_decide]
      omega
    rw [charsBefore_cons, List.length_cons, List.range_succ_eq_map, List.countP_cons,
      List.countP_map]
    simp only [Function.comp_def, hlater, List.take_zero, width_nil]
    rw [← ih]
    by_cases hzero : n = 0
    · subst hzero
      rw [Nat.zero_sub]
      cases cs <;> rfl
    · have hlt : 0 < n := Nat.pos_of_ne_zero hzero
      simp [hzero, hlt]

theorem charsBefore_mono {m n : Nat} (h : m ≤ n) (cs : List Char) :
    charsBefore m cs ≤ charsBefore n cs := by
  rw [charsBefore_eq_countP, charsBefore_eq_countP]
  apply List.countP_mono_left
  intro i _ hi
  simp only [decide_eq_true_eq] at hi ⊢
  omega

theorem charsBefore_width_take {cs : List Char} {i : Nat} (h : i ≤ cs.length) :
    charsBefore (width (cs.take i)) cs = i := by
  have hbefore := charsBefore_width_append (cs.take i) (cs.drop i)
  rwa [List.take_append_drop, List.length_take, Nat.min_eq_left h] at hbefore

theorem IsBoundary.exists_append {source : List Char} {n : Nat} (h : IsBoundary source n) :
    ∃ before after, source = before ++ after ∧ width before = n := by
  unfold IsBoundary at h
  rw [String.Pos.Raw.isValid_ofList] at h
  obtain ⟨i, hi⟩ := h
  refine ⟨source.take i, source.drop i, (List.take_append_drop i source).symm, ?_⟩
  rw [← utf8ByteSize_ofList]
  exact hi.symm

theorem width_take_charsBefore {source : List Char} {n : Nat} (h : IsBoundary source n) :
    width (source.take (charsBefore n source)) = n := by
  obtain ⟨before, after, rfl, rfl⟩ := h.exists_append
  rw [charsBefore_width_append, List.take_left]

end Text

/-! ### Ranges of characters -/

/-- The report points at the characters that the span of the diagnostic covers in the source. -/
structure Report.PointsAt (source : List Char) (d : Diagnostic) (r : Report) : Prop where
  range_eq : r.range =
    (Text.charsBefore d.span.start source, Text.charsBefore d.span.stop source)
  nonempty : r.range.1 < r.range.2
  within : r.range.2 ≤ source.length
  slice : d.span.slice? source = some ((source.take r.range.2).drop r.range.1)

/-- A span that covers characters is turned into the range of these characters. -/
theorem Report.pointsAt_ofDiagnostic (path : String) {source xs : List Char} {d : Diagnostic}
    (hslice : d.span.slice? source = some xs) (hxs : xs ≠ []) :
    PointsAt source d (ofDiagnostic path source d) := by
  obtain ⟨before, after, hsource, hstart, hstop⟩ := Span.slice?_eq_some_iff.1 hslice
  have hfirst : Text.charsBefore d.span.start source = before.length := by
    rw [hsource, ← hstart, Text.charsBefore_width_append]
  have hlast : Text.charsBefore d.span.stop source = (before ++ xs).length := by
    rw [hsource, ← hstop, ← hstart, ← Text.width_append, ← List.append_assoc,
      Text.charsBefore_width_append]
  have hpos := List.length_pos_iff.2 hxs
  have hrange : (ofDiagnostic path source d).range = (before.length, (before ++ xs).length) := by
    unfold ofDiagnostic
    rw [hfirst, hlast]
  constructor
  · rfl
  · rw [hrange, List.length_append]
    omega
  · rw [hrange, hsource]
    simp only [List.length_append]
    omega
  · rw [hrange, hslice, hsource, ← List.append_assoc, List.take_left, List.drop_left]

/-- Every fault covers some text of its source. -/
theorem exists_slice?_of_mem_diagnose {source : List Char} {d : Diagnostic}
    (hd : d ∈ diagnose source) : ∃ xs, d.span.slice? source = some xs ∧ xs ≠ [] := by
  have hplaced : ∀ t ∈ tokens {} source, t.PlacedIn source ∧ t.text ≠ [] := by
    intro t ht
    have hlt := (partition_tokens {} source).nonempty t ht
    refine ⟨placedIn_tokens {} source t ht, ?_⟩
    intro hnil
    simp [Token.stop, hnil] at hlt
  obtain ⟨last, hdiagnose, hlast⟩ := exists_endFault source
  rw [hdiagnose, List.mem_append] at hd
  rcases hd with hd | hd
  · obtain ⟨t, ht, -, hspan⟩ := Diagnostic.exists_token_of_mem_ofSteps hd
    obtain ⟨hslice, hne⟩ := hplaced t ht
    rw [hspan]
    exact ⟨t.text, hslice, hne⟩
  · cases hlast with
    | code => contradiction
    | @unclosed opener region fault htop hopened hspan =>
      obtain ⟨-, before, inside, hscan, -⟩ := hopened
      have ht : opener.token ∈ tokens {} source := by
        unfold tokens
        rw [hscan]
        exact List.mem_flatMap.2 ⟨opener, by simp, List.mem_cons_self⟩
      -- what is at fault goes on from the opener to the end of the source
      obtain ⟨hslice, hne⟩ := hplaced _ ht
      obtain ⟨front, back, hsource, hstart⟩ := Token.placedIn_iff.1 hslice
      refine ⟨opener.token.text ++ back, ?_, by simp [hne]⟩
      rw [List.mem_singleton.1 hd, hspan, Span.slice?_eq_some_iff]
      refine ⟨front, [], by simpa using hsource, hstart, ?_⟩
      rw [← hstart, ← Text.width_append, ← hsource]

/--
Reports point at the right characters. The range of each report is not empty, lies within the source
and holds exactly the characters that the span of the fault covers. Counting the characters before a
byte, be it within a character or past the end, never goes back as the byte goes on, and between
characters it undoes the step from the number of a character to its byte.
-/
theorem reports_pointAt (path : String) (source : List Char) :
    List.Forall₂ (Report.PointsAt source) (diagnose source)
      (reports path source (diagnose source)) ∧
    (∀ n, Text.charsBefore n source = (List.range source.length).countP fun i =>
      Text.width (source.take i) < min n (Text.width source)) ∧
    (∀ m n, m ≤ n → Text.charsBefore m source ≤ Text.charsBefore n source) ∧
    (∀ i ≤ source.length, Text.charsBefore (Text.width (source.take i)) source = i) ∧
    ∀ n, Text.IsBoundary source n → Text.width (source.take (Text.charsBefore n source)) = n := by
  refine ⟨?_, ?_, ?_, ?_, ?_⟩
  · unfold reports
    rw [List.forall₂_map_right_iff, List.forall₂_same]
    intro d hd
    obtain ⟨xs, hslice, hxs⟩ := exists_slice?_of_mem_diagnose hd
    exact Report.pointsAt_ofDiagnostic path hslice hxs
  · intro n
    rw [← Text.charsBefore_min_width, Text.charsBefore_eq_countP]
  · intro m n hmn
    exact Text.charsBefore_mono hmn source
  · intro i hi
    exact Text.charsBefore_width_take hi
  · intro n hn
    exact Text.width_take_charsBefore hn

/-- A letter of two bytes at fault, and a string with such a letter that its line does not close. -/
theorem reports_pointAt_wide :
    (reports "a.leia" ['λ', '"', 'é'] (diagnose ['λ', '"', 'é'])).map Report.range =
        [(0, 1), (1, 3)] ∧
      Text.charsBefore 3 ['λ', '"', 'é'] ≤ Text.charsBefore 4 ['λ', '"', 'é'] ∧
      Text.charsBefore 3 ['λ', '"', 'é'] = 2 ∧
      Text.IsBoundary ['λ', '"', 'é'] 3 ∧
      Text.width (['λ', '"', 'é'].take (Text.charsBefore 3 ['λ', '"', 'é'])) = 3 := by
  obtain ⟨-, -, hmono, hindex, hbyte⟩ := reports_pointAt "a.leia" ['λ', '"', 'é']
  have hboundary : Text.IsBoundary ['λ', '"', 'é'] 3 :=
    Text.isBoundary_width_append ['λ', '"'] ['é']
  exact ⟨by decide +kernel, hmono 3 4 (by decide), hindex 2 (by decide), hboundary,
    hbyte 3 hboundary⟩

end Tokenizer
