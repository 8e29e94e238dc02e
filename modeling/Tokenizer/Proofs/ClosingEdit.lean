import Tokenizer.Proofs.ClosingText
import Tokenizer.Proofs.Composition
import Tokenizer.Proofs.Diagnosis

/-!
The edit that is to close a region. A source that leaves a region open gets a last fault with one
edit, which puts the closing text at the end of the source. The edit does what it is for unless
the source ends in a character that takes the closing text to itself.
-/
namespace Tokenizer

/--
The source ends in a character that takes what would close the region to itself: a backslash that
escapes nothing yet, or the slash of a doc comment.
-/
def Region.takesCloser (source : List Char) : Region → Bool
  | string => (tokens {} source).getLast?.any (·.category == .invalid)
  | docComment => source.getLast? == some '/'
  | blockComment => false

/-! ### The region that is left open -/

/-- From a fresh stack, at most one region is open. -/
theorem endModes_of_scan {source : List Char} {before after : List Step}
    (h : scan {} source = before ++ after) :
    endModes {} before = {} ∨ ∃ region, endModes {} before = ⟨[region]⟩ := by
  have htracks := tracks_of_scan h
  generalize openedAfter before = opened at htracks
  generalize endModes {} before = modes at htracks ⊢
  cases htracks with
  | code => exact .inl rfl
  | @region opener region _ => exact .inr ⟨region, rfl⟩

theorem finalModes_of_top {source : List Char} {region : Region}
    (hopen : (finalModes {} source).top = .inside region) :
    finalModes {} source = ⟨[region]⟩ ∧ ∃ opener, OpenedBy (scan {} source) opener region ∧
      openedFrom 0 (scan {} source) = opener.token.start := by
  have htracks := tracks_of_scan (List.append_nil (scan {} source)).symm
  change Tracks _ (finalModes {} source) (openedFrom 0 (scan {} source)) at htracks
  generalize finalModes {} source = modes at hopen htracks ⊢
  generalize openedFrom 0 (scan {} source) = opened at htracks ⊢
  cases htracks with
  | code => simp [ModeStack.top] at hopen
  | @region opener r hopened =>
    obtain rfl : r = region := by simpa [ModeStack.top] using hopen
    exact ⟨rfl, opener, hopened, rfl⟩

theorem diagnose_of_top {source : List Char} {region : Region}
    (hopen : (finalModes {} source).top = .inside region) :
    diagnose source = Diagnostic.ofSteps 0 (scan {} source) ++
      [.unclosed ⟨openedFrom 0 (scan {} source), Text.width source⟩ region] := by
  rw [diagnose_eq, (finalModes_of_top hopen).1]
  rfl

theorem ModeStack.enter_ne (modes : ModeStack) (region : Region) : modes.enter region ≠ modes := by
  intro h
  have hlength := congrArg (fun m => m.regions.length) h
  simp [enter] at hlength

/-- Rules that open a region give no faults. -/
theorem gives_eq_false_of_push : ∀ rule ∈ rootRules, rule.transition ≠ .stay →
    ∀ category ∈ Category.all.filter Category.isFault, rule.action.gives category = false := by
  decide

theorem Step.Opens.isFault_eq_false {start : Nat} {modes : ModeStack} {c : Char} {cs : List Char}
    {region : Region} (h : (step start modes c cs).Opens region) :
    ∀ t ∈ (step start modes c cs).tokens, t.category.isFault = false := by
  intro t ht
  rw [Bool.eq_false_iff]
  intro hfault
  have htop : modes.top = .root := by simpa [Step.mode] using h.mode_eq
  have hafter := h.after_eq
  rcases fault_cases ht hfault with ⟨rule, m, hmem, -, hstep, hgives, -⟩ | ⟨-, hstep⟩
  · have hpush : rule.transition ≠ .stay := by
      intro hstay
      rw [hstep] at hafter
      simp only [Step.after, hstay, Transition.apply] at hafter
      exact modes.enter_ne region hafter.symm
    rw [htop] at hmem
    have hin : t.category ∈ Category.all.filter Category.isFault :=
      List.mem_filter.2 ⟨Category.mem_all _, hfault⟩
    have hnot := gives_eq_false_of_push rule hmem hpush _ hin
    simp [hgives] at hnot
  · rw [hstep] at hafter
    exact modes.enter_ne region hafter.symm

theorem LaidFrom.eq_of_start_eq {start : Nat} {ts : List Token} (h : LaidFrom start ts)
    {t u : Token} (ht : t ∈ ts) (hu : u ∈ ts) (heq : t.start = u.start) : t = u := by
  induction ts generalizing start with
  | nil => simp at ht
  | cons v ts ih =>
    obtain ⟨-, hne, hts⟩ := h
    have hpos := Text.width_pos hne
    have hafter : ∀ w ∈ ts, v.start < w.start := by
      intro w hw
      have hle := (hts.within w hw).1
      rw [Token.stop] at hle
      omega
    rcases List.mem_cons.1 ht with rfl | ht'
    · rcases List.mem_cons.1 hu with rfl | hu'
      · rfl
      · have hlt := hafter u hu'
        omega
    · rcases List.mem_cons.1 hu with rfl | hu'
      · have hlt := hafter t ht'
        omega
      · exact ih hts ht' hu'

theorem Diagnostic.of_ofToken?_eq_some {mode : Mode} {opened : Nat} {t : Token} {d : Diagnostic}
    (h : ofToken? mode opened t = some d) : t.category.isFault = true ∧ d.span = t.span := by
  unfold ofToken? at h
  split at h
  case h_5 hcategory =>
    obtain rfl := Option.some.inj h
    rw [hcategory]
    refine ⟨rfl, ?_⟩
    split <;> rfl
  case h_6 => simp at h
  all_goals
    rename_i hcategory
    obtain rfl := Option.some.inj h
    rw [hcategory]
    exact ⟨rfl, rfl⟩

/-- A fault of some steps comes from one of them. -/
theorem Diagnostic.exists_step_of_mem_ofSteps {opened : Nat} {taken : List Step} {d : Diagnostic}
    (h : d ∈ ofSteps opened taken) :
    ∃ before s after, taken = before ++ s :: after ∧
      ∃ t ∈ s.tokens, ofToken? s.mode (s.openedAt (openedFrom opened before)) t = some d := by
  induction taken generalizing opened with
  | nil => simp [ofSteps] at h
  | cons s taken ih =>
    rcases List.mem_append.1 h with h | h
    · obtain ⟨t, ht, hd⟩ := List.mem_filterMap.1 h
      exact ⟨[], s, taken, rfl, t, ht, hd⟩
    · obtain ⟨before, u, after, rfl, t, ht, hd⟩ := ih h
      exact ⟨s :: before, u, after, rfl, t, ht, hd⟩

theorem Diagnostic.exists_token_of_mem_ofSteps {opened : Nat} {taken : List Step} {d : Diagnostic}
    (h : d ∈ ofSteps opened taken) :
    ∃ t ∈ taken.flatMap Step.tokens, t.category.isFault = true ∧ d.span = t.span := by
  obtain ⟨before, s, after, rfl, t, ht, hd⟩ := exists_step_of_mem_ofSteps h
  exact ⟨t, List.mem_flatMap.2 ⟨s, by simp, ht⟩, of_ofToken?_eq_some hd⟩

/-- No token is at fault where the open region starts. -/
theorem start_ne_of_mem_ofSteps {source : List Char} {region : Region}
    (hopen : (finalModes {} source).top = .inside region) :
    ∀ d ∈ Diagnostic.ofSteps 0 (scan {} source),
      d.span.start ≠ openedFrom 0 (scan {} source) := by
  obtain ⟨-, opener, ⟨hopens, before, inside, hscan, -⟩, hstart⟩ := finalModes_of_top hopen
  obtain ⟨c, rest, -, hopener, -⟩ := steps_eq_append_cons hscan
  intro d hd heq
  obtain ⟨t, ht, hfault, hspan⟩ := Diagnostic.exists_token_of_mem_ofSteps hd
  have hmem : opener.token ∈ (scan {} source).flatMap Step.tokens := by
    rw [hscan, List.flatMap_append, List.flatMap_cons]
    exact List.mem_append_right _ (List.mem_append_left _ List.mem_cons_self)
  rw [hspan, hstart] at heq
  obtain rfl := (laidFrom_steps 0 {} source).eq_of_start_eq ht hmem heq
  rw [hopener] at hopens hfault
  rw [hopens.isFault_eq_false _ List.mem_cons_self] at hfault
  simp at hfault

/-! ### The edit -/

theorem unclosed_suggestions (span : Span) (region : Region) :
    (Diagnostic.unclosed span region).suggestions.filterMap Suggestion.edit? =
      [⟨.point span.stop, region.closer⟩] := by
  cases region <;> rfl

theorem Edit.apply_end (source text : List Char) :
    Edit.apply? ⟨.point (Text.width source), text⟩ source = some (source ++ text) := by
  have hcut := Text.cut?_width_append source []
  rw [List.append_nil] at hcut
  unfold Edit.apply?
  simp [Span.point, Span.length?, hcut, Text.cut?]

/-! ### A closer that is read as such -/

/-- In its region the closer is read in one step, which leaves the region. -/
theorem steps_closer {modes : ModeStack} {region : Region} (htop : modes.top = .inside region)
    (start : Nat) :
    ∃ rule, steps start modes region.closer = [⟨start, modes, some rule, region.closer, []⟩] ∧
      rule.action = .emit (Mode.inside region).fillerCategory ∧ rule.transition = .pop := by
  cases region with
  | string =>
    refine ⟨⟨"string.close", .doubleQuote, .emit .string, .pop⟩, ?_, rfl, rfl⟩
    rw [Region.closer, steps_cons, step_string_close htop, steps_nil]
  | blockComment =>
    have htop : modes.top = .inside (commentRegion false) := htop
    refine ⟨commentCloseRule false, ?_, rfl, rfl⟩
    rw [Region.closer, steps_cons, step_comment_close htop, steps_nil]
  | docComment =>
    have htop : modes.top = .inside (commentRegion true) := htop
    refine ⟨commentCloseRule true, ?_, rfl, rfl⟩
    rw [Region.closer, steps_cons, step_comment_close htop, steps_nil]

theorem Diagnostic.ofSteps_of_faultless {taken : List Step}
    (h : ∀ s ∈ taken, ∀ t ∈ s.tokens, t.category.isFault = false) (opened : Nat) :
    ofSteps opened taken = [] := by
  rw [List.eq_nil_iff_forall_not_mem]
  intro d hd
  obtain ⟨t, ht, hfault, -⟩ := exists_token_of_mem_ofSteps hd
  obtain ⟨s, hs, ht⟩ := List.mem_flatMap.1 ht
  rw [h s hs t ht] at hfault
  simp at hfault

/-- The closer is read as the end of the region, after steps that are as before. -/
def Closes (source : List Char) (region : Region) : Prop :=
  scan {} (source ++ region.closer) = (scan {} source).map (·.extend region.closer) ++
    steps (Text.width source) (finalModes {} source) region.closer

theorem Closes.finalModes_eq {source : List Char} {region : Region}
    (h : Closes source region) (hopen : (finalModes {} source).top = .inside region) :
    finalModes {} (source ++ region.closer) = {} := by
  obtain ⟨rule, hlast, -, hpop⟩ := steps_closer hopen (Text.width source)
  unfold Closes at h
  rw [finalModes, h, hlast, endModes_append, endModes_cons, endModes_nil, Step.after]
  simp only [hpop, Transition.apply, (finalModes_of_top hopen).1]
  rfl

/-- A closer that is read as such takes away the last fault and adds none. -/
theorem Closes.diagnose_eq {source : List Char} {region : Region}
    (h : Closes source region) (hopen : (finalModes {} source).top = .inside region) :
    diagnose (source ++ region.closer) = Diagnostic.ofSteps 0 (scan {} source) := by
  have hmodes := h.finalModes_eq hopen
  obtain ⟨rule, hlast, haction, -⟩ := steps_closer hopen (Text.width source)
  unfold Closes at h
  have hnone (opened : Nat) : Diagnostic.ofSteps opened
      (steps (Text.width source) (finalModes {} source) region.closer) = [] := by
    apply Diagnostic.ofSteps_of_faultless
    intro s hs t ht
    rw [hlast, List.mem_singleton] at hs
    rw [hs, Step.tokens_of_emit rfl haction, List.mem_singleton] at ht
    rw [ht]
    cases region <;> rfl
  rw [Tokenizer.diagnose_eq, hmodes, h, Diagnostic.ofSteps_append, Diagnostic.ofSteps_map_extend,
    hnone, List.append_nil]
  exact List.append_nil _

/-- Steps that are as before were taken whatever follows. -/
theorem step_of_steps_extend {start : Nat} {modes : ModeStack} {cs zs : List Char}
    {before after more : List Step} {s : Step} (h : steps start modes cs = before ++ s :: after)
    (hmore : steps start modes (cs ++ zs) =
      (before ++ s :: after).map (·.extend zs) ++ more) :
    ∃ c rest n, s = step n (endModes modes before) c rest ∧
      s.extend zs = step n (endModes modes before) c (rest ++ zs) ∧
      cs = before.flatMap Step.text ++ c :: rest ∧ after = steps s.stop s.after s.rest := by
  obtain ⟨c, rest, hcs, hs, hafter⟩ := steps_eq_append_cons h
  rw [List.map_append, List.map_cons, List.append_assoc, List.cons_append] at hmore
  obtain ⟨d, rest', hcs', hs', -⟩ := steps_eq_append_cons hmore
  have htexts : (before.map (·.extend zs)).flatMap Step.text = before.flatMap Step.text := by
    rw [List.flatMap_map]
    rfl
  rw [htexts, endModes_map_extend] at hs'
  rw [htexts, hcs, List.append_assoc, List.append_cancel_left_eq, List.cons_append] at hcs'
  obtain ⟨rfl, rfl⟩ := List.cons.inj hcs'
  exact ⟨c, rest, _, hs, hs', hcs, hafter⟩

/-! ### The end of the source -/

theorem step_string_escapedQuote {modes : ModeStack} (htop : modes.top = .inside .string)
    (start : Nat) :
    step start modes '\\' ['"'] =
      ⟨start, modes, some ⟨"string.escape", .escape, .emit .stringEscape, .stay⟩, ['\\', '"'],
        []⟩ := by
  have hmatch : Pattern.escape.match? ['\\', '"'] = some ⟨['\\', '"'], []⟩ := rfl
  rw [step_string_escape htop start hmatch]

/-- The last step of a source that leaves a region open reads up to the end and leaves it open. -/
theorem exists_last_step {source : List Char} {region : Region}
    (hopen : (finalModes {} source).top = .inside region) :
    ∃ before s, scan {} source = before ++ [s] ∧ s.rest = [] ∧ s.after.top = .inside region := by
  rcases List.eq_nil_or_concat (scan {} source) with hnil | ⟨before, s, hscan⟩
  · rw [finalModes, hnil] at hopen
    simp [ModeStack.top] at hopen
  · rw [List.concat_eq_append] at hscan
    obtain ⟨-, -, -, -, hafter⟩ := steps_eq_append_cons hscan
    refine ⟨before, s, hscan, ?_, ?_⟩
    · cases hrest : s.rest with
      | nil => rfl
      | cons d ds => simp [hrest, steps_cons] at hafter
    · rw [finalModes, hscan, endModes_append] at hopen
      exact hopen

/-- In a string that stays open, only a backslash at the end is invalid. -/
theorem eq_dangling_of_invalid {start : Nat} {modes : ModeStack} {c : Char} {rest : List Char}
    {t : Token} (hrest : (step start modes c rest).rest = [])
    (hafter : (step start modes c rest).after.top = .inside .string)
    (ht : t ∈ (step start modes c rest).tokens) (hcategory : t.category = .invalid) :
    modes.top = .inside .string ∧ c = '\\' ∧ rest = [] := by
  have hfault : t.category.isFault = true := by rw [hcategory]; rfl
  rcases fault_cases ht hfault with ⟨rule, m, -, -, -, -, hmode⟩ | ⟨-, hstep⟩
  · rw [hcategory] at hmode
    simp [Category.faultMode?] at hmode
  rw [hstep] at hrest hafter
  have htop : modes.top = .inside .string := hafter
  refine ⟨htop, ?_, hrest⟩
  by_contra hc
  by_cases hfiller : modes.top.isFiller c = true
  · rw [step_of_isFiller start modes hfiller] at hstep
    simp at hstep
  · obtain rfl : c = '"' := by
      rw [htop] at hfiller
      simp [Mode.isFiller] at hfiller
      tauto
    rw [step_string_close htop] at hstep
    simp at hstep

theorem filter_push_docComment :
    rootRules.filter (fun rule => rule.transition == .push .docComment) =
      [⟨"doc.open", .docCommentOpen, .emit .docComment, .push .docComment⟩] := rfl

/-- A step that opens a doc comment ends in a star. -/
theorem getLast?_of_opens_docComment {start : Nat} {modes : ModeStack} {c : Char}
    {cs : List Char} (htop : modes.top = .root)
    (hafter : (step start modes c cs).after.top = .inside .docComment) :
    (step start modes c cs).text.getLast? = some '*' := by
  rcases step_cases start modes c cs with ⟨rule, m, hmem, hmatch, hstep⟩ | hstep
  · rw [hstep] at hafter ⊢
    rw [htop] at hmem
    have hpush : rule.transition = .push .docComment := by
      cases ht : rule.transition with
      | stay =>
        simp only [Step.after, ht, Transition.apply, htop] at hafter
        simp at hafter
      | push region =>
        simp only [Step.after, ht, Transition.apply, ModeStack.enter, ModeStack.top] at hafter
        simpa using hafter
      | pop => exact absurd ht (transition_ne_pop_of_mem_rootRules rule hmem)
    have hrule : rule ∈ rootRules.filter fun rule => rule.transition == .push .docComment :=
      List.mem_filter.2 ⟨hmem, by simp [hpush]⟩
    rw [filter_push_docComment, List.mem_singleton] at hrule
    subst hrule
    obtain ⟨x, hx, y, hy, rfl⟩ :=
      Pattern.match?_append_eq_some.1 (Rule.match?_eq_some_iff.1 hmatch).1
    obtain ⟨rest, -, rfl⟩ := Pattern.match?_literal_eq_some.1 hx
    rw [Pattern.match?_notBefore, Option.ite_none_left_eq_some, Option.some.injEq] at hy
    obtain ⟨-, rfl⟩ := hy
    rfl
  · rw [hstep] at hafter
    change modes.top = _ at hafter
    simp [htop] at hafter

/-- A step within a doc comment ends in a slash only if it reads nothing else, or the end. -/
theorem text_of_getLast?_slash {start : Nat} {modes : ModeStack} {c : Char} {cs : List Char}
    (htop : modes.top = .inside .docComment) (hafter : (step start modes c cs).after = modes)
    (hlast : (step start modes c cs).text.getLast? = some '/') :
    (step start modes c cs).text = ['/'] := by
  rcases step_cases start modes c cs with ⟨rule, m, hmem, hmatch, hstep⟩ | hstep
  · rw [hstep] at hafter hlast ⊢
    by_cases havoids : rule.pattern.avoids '/' = true
    · exact absurd hlast (getLast?_ne_of_avoids havoids hmatch)
    have hpattern := (Rule.match?_eq_some_iff.1 hmatch).1
    simp only [htop, Mode.rules, docCommentRules, List.mem_cons, List.not_mem_nil, or_false] at hmem
    rcases hmem with rfl | rfl | rfl | rfl
    · exact absurd rfl havoids
    · obtain ⟨rest, -, rfl⟩ := Pattern.match?_literal_eq_some.1 hpattern
      simp at hlast
    · exact absurd hafter (ModeStack.leave_ne htop)
    · obtain ⟨d, rest, -, -, rfl⟩ := Pattern.match?_oneOf_eq_some.1 hpattern
      simpa using hlast
  · rw [hstep] at hlast ⊢
    simpa using hlast

theorem getLast?_tokens {source : List Char} {before : List Step} {s : Step}
    (h : scan {} source = before ++ [s]) : (tokens {} source).getLast? = s.tokens.getLast? := by
  rw [tokens, h, List.flatMap_append, List.flatMap_singleton, List.getLast?_append, Step.tokens,
    List.getLast?_cons]
  rfl

/-- A source at whose end the closer is read as such ends in no character that would take it. -/
theorem Closes.takesCloser_eq {source : List Char} {region : Region} (h : Closes source region)
    (hopen : (finalModes {} source).top = .inside region) : region.takesCloser source = false := by
  obtain ⟨before, s, hscan, hrest, hafter⟩ := exists_last_step hopen
  unfold Closes at h
  rw [hscan] at h
  obtain ⟨c, rest, n, hs, hextend, hsource, -⟩ := step_of_steps_extend hscan h
  have htexts := congrArg Step.text hextend
  change s.text = _ at htexts
  rw [Bool.eq_false_iff]
  intro htakes
  cases region with
  | blockComment => simp [Region.takesCloser] at htakes
  | string =>
    obtain ⟨t, ht, hcategory⟩ : ∃ t, (tokens {} source).getLast? = some t ∧
        t.category = .invalid := by
      simpa [Region.takesCloser, Option.any_eq_true] using htakes
    rw [getLast?_tokens hscan] at ht
    have hmem := List.mem_of_getLast? ht
    rw [hs] at hrest hafter hmem
    -- with the closer behind it, the dangling backslash takes the quote into its step
    obtain ⟨htop, rfl, rfl⟩ := eq_dangling_of_invalid hrest hafter hmem hcategory
    rw [hs, step_string_dangling htop n (by simp)] at htexts
    simp [Region.closer, step_string_escapedQuote htop] at htexts
  | docComment =>
    have hsplit := step_split n (endModes {} before) c rest
    rw [← hs, hrest, List.append_nil] at hsplit
    have hlast : s.text.getLast? = some '/' := by
      have hend : source.getLast? = some '/' := by simpa [Region.takesCloser] using htakes
      rw [hsource, List.getLast?_append, List.getLast?_cons] at hend
      rw [hsplit, List.getLast?_cons]
      exact hend
    rw [hs] at hlast hafter
    -- the slash ends neither the opener nor a unit, so it is a step of its own
    rcases endModes_of_scan hscan with hmodes | ⟨r, hmodes⟩
    · rw [hmodes] at hafter hlast
      simp [getLast?_of_opens_docComment rfl hafter] at hlast
    have hinside : (endModes {} before).top = .inside r := by
      rw [hmodes]
      rfl
    rcases after_of_inside hinside n c rest with hstay | hleave
    · rw [hstay] at hafter
      have htext := text_of_getLast?_slash hafter hstay hlast
      rw [← hs, hsplit] at htext
      obtain ⟨rfl, rfl⟩ := List.cons.inj htext
      rw [hsplit, List.nil_append] at htexts
      simp [Region.closer, step_doc_nested hafter] at htexts
    · rw [hleave, hmodes] at hafter
      simp [ModeStack.leave, ModeStack.top] at hafter

/-! ### A closer that is taken for something else -/

theorem takesCloser_of_dangling {source : List Char} {before : List Step} {n : Nat}
    {modes : ModeStack} (h : scan {} source = before ++ [⟨n, modes, none, ['\\'], []⟩]) :
    Region.string.takesCloser source = true := by
  rw [Region.takesCloser, getLast?_tokens h]
  rfl

section
variable {source : List Char} {before : List Step} {modes : ModeStack} {n : Nat}

/-- The quote of a string whose last line ends in a backslash is unterminated with the closer. -/
theorem exists_fault_of_quote (htop : modes.top = .root) {body : List Char}
    (hbody : StringBody body)
    (hscan : scan {} source = before ++ steps n modes ('"' :: (body ++ ['\\'])))
    (hfixed : scan {} (source ++ ['"']) = before.map (·.extend ['"']) ++
      steps n modes ('"' :: (body ++ ['\\']) ++ ['"'])) :
    Region.string.takesCloser source = true ∧
      ∃ d ∈ diagnose (source ++ ['"']), d.cause = .unterminatedString ∧
        d.span.start = openedFrom 0 (scan {} source) := by
  obtain ⟨inner, hsteps, hopens, hinner⟩ := steps_string_dangling_end htop n hbody
  rw [hsteps] at hscan
  have hstart : openedFrom 0 (scan {} source) = n := by
    rw [hscan, openedFrom_append]
    change openedFrom (Step.openedAt _ _) _ = n
    rw [hopens.openedAt, openedFrom_of_depth_le]
    · exact step_start n modes '"' _
    · intro s hs
      rcases List.mem_append.1 hs with hs | hs
      · rw [(hinner s hs).after_eq, (hinner s hs).modes_eq]
      · obtain rfl := List.mem_singleton.1 hs
        exact Nat.le_refl _
  rw [← List.cons_append, ← List.append_assoc] at hscan
  refine ⟨takesCloser_of_dangling hscan, ?_⟩
  -- with the closer, the backslash escapes the quote and the line ends there
  have hlonger : StringBody (body ++ ['\\', '"']) := hbody.append (.escaped rfl .nil)
  have hnil : ∀ c ∈ List.head? [], CharClass.isLineBreak c = true := by simp
  obtain ⟨htokens, -⟩ := step_string_unterminated htop n hlonger hnil rfl
  rw [List.append_nil, step_start] at htokens
  rw [List.cons_append, List.append_assoc, List.singleton_append, steps_cons] at hfixed
  refine ⟨.unterminatedString ⟨n, n + Text.width ('"' :: (body ++ ['\\', '"']))⟩, ?_, rfl,
    hstart.symm⟩
  rw [diagnose_eq, hfixed, Diagnostic.ofSteps_append]
  apply List.mem_append_left
  apply List.mem_append_right
  rw [Diagnostic.ofSteps, htokens]
  exact List.mem_append_left _ List.mem_cons_self

theorem finalModes_of_scan_eq {fixed left : List Char} {zs : List Char}
    (hmodes : endModes {} before = modes)
    (hfixed : scan {} fixed = before.map (·.extend zs) ++ steps n modes left) :
    finalModes {} fixed = finalModes modes left := by
  rw [finalModes, hfixed, endModes_append, endModes_map_extend, hmodes, endModes_steps]

/-- Inside a string, a quote after a backslash does not end the string. -/
theorem takesCloser_of_escape (htop : modes.top = .inside .string)
    (hscan : scan {} source = before ++ steps n modes ['\\']) :
    Region.string.takesCloser source = true ∧
      (finalModes modes (['\\'] ++ Region.string.closer)).top = .inside .string := by
  have hdangling : step n modes '\\' [] = _ := step_string_dangling htop n (by simp)
  constructor
  · rw [steps_cons, hdangling, steps_nil] at hscan
    exact takesCloser_of_dangling hscan
  · change (finalModes modes ['\\', '"']).top = _
    rw [finalModes_of_step (step_string_escapedQuote htop 0) rfl]
    exact htop

/-- Inside a doc comment, the star after a slash does not end the comment. -/
theorem takesCloser_of_nested (htop : modes.top = .inside .docComment) {texts : List Char}
    (hsource : source = texts ++ ['/']) :
    Region.docComment.takesCloser source = true ∧
      (finalModes modes (['/'] ++ Region.docComment.closer)).top = .inside .docComment := by
  have htop' : modes.top = .inside (commentRegion true) := htop
  have hslash : step 0 modes '/' [] = _ := step_comment_slash htop' 0 (by simp)
  constructor
  · simp [Region.takesCloser, hsource]
  · change (finalModes modes ['/', '*', '/']).top = _
    rw [finalModes_cons 0, step_doc_nested htop]
    change (finalModes modes ['/']).top = _
    rw [finalModes_of_step hslash rfl]
    exact htop

end

/-- The edit closes the region: code follows, and no region is unterminated where it started. -/
structure Mends (fixed : List Char) (opened : Nat) : Prop where
  finalModes_eq : finalModes {} fixed = {}
  start_ne : ∀ d ∈ diagnose fixed,
    d.cause = .unterminatedString ∨ d.cause = .unterminatedComment → d.span.start ≠ opened

/-- Where the closer is not read as such, it does not mend the source. -/
theorem closes_or_takesCloser {source : List Char} {region : Region}
    (hopen : (finalModes {} source).top = .inside region) :
    Closes source region ∨ region.takesCloser source = true ∧
      ¬Mends (source ++ region.closer) (openedFrom 0 (scan {} source)) := by
  rcases steps_append_closer 0 {} source hopen with hall |
    ⟨before, left, hleft, hsource, hscan, hfixed⟩
  · left
    rw [Nat.zero_add] at hall
    exact hall
  right
  change scan {} source = _ at hscan
  change scan {} (source ++ region.closer) = _ at hfixed
  generalize hmodes : endModes {} before = modes at hleft hscan hfixed
  have hfinal := finalModes_of_scan_eq hmodes hfixed
  have hopened {r : Region} (h : (finalModes {} (source ++ region.closer)).top = .inside r) :
      ¬Mends (source ++ region.closer) (openedFrom 0 (scan {} source)) := by
    intro hmends
    rw [hmends.finalModes_eq] at h
    simp [ModeStack.top] at h
  cases hleft with
  | quote htop hbody =>
    obtain ⟨htakes, d, hd, hcause, hstart⟩ := exists_fault_of_quote htop hbody hscan hfixed
    exact ⟨htakes, fun hmends => hmends.start_ne d hd (.inl hcause) hstart⟩
  | escape htop =>
    obtain ⟨htakes, hinside⟩ := takesCloser_of_escape htop hscan
    rw [← hfinal] at hinside
    exact ⟨htakes, hopened hinside⟩
  | nested htop =>
    obtain ⟨htakes, hinside⟩ := takesCloser_of_nested htop hsource
    rw [← hfinal] at hinside
    exact ⟨htakes, hopened hinside⟩

/--
The last fault of a source that leaves a region open proposes one edit, which applies and puts the
closing text at the end. The edit closes the region, and leaves no unterminated region where this
one started, exactly if the source does not end in a character that takes the closing text to
itself. Then it takes away the last fault and adds none.
-/
theorem closing_edit_mends_iff {source : List Char} {region : Region}
    (hopen : (finalModes {} source).top = .inside region) :
    ∃ e edit fixed, (diagnose source).getLast? = some e ∧ e.cause = region.unclosedCause ∧
      e.span.stop = Text.width source ∧ e.suggestions.filterMap Suggestion.edit? = [edit] ∧
      edit.apply? source = some fixed ∧ fixed = source ++ region.closer ∧
      (Mends fixed e.span.start ↔ region.takesCloser source = false) ∧
      (region.takesCloser source = false → diagnose fixed = (diagnose source).dropLast) := by
  have hdiagnose := diagnose_of_top hopen
  generalize hspan : (⟨openedFrom 0 (scan {} source), Text.width source⟩ : Span) = span at hdiagnose
  have hstart : span.start = openedFrom 0 (scan {} source) := by rw [← hspan]
  have hstop : span.stop = Text.width source := by rw [← hspan]
  have hunclosed : (Diagnostic.unclosed span region).span = span ∧
      (Diagnostic.unclosed span region).cause = region.unclosedCause := by
    cases region <;> exact ⟨rfl, rfl⟩
  obtain ⟨hspan, hcause⟩ := hunclosed
  refine ⟨_, _, _, ?_, hcause, ?_, unclosed_suggestions span region, ?_, rfl, ?_, ?_⟩
  · rw [hdiagnose, List.getLast?_concat]
  · rw [hspan, hstop]
  · rw [hstop, Edit.apply_end]
  · rw [hspan, hstart]
    rcases closes_or_takesCloser hopen with hcloses | ⟨htakes, hnot⟩
    · have hfaults := hcloses.diagnose_eq hopen
      refine iff_of_true ⟨hcloses.finalModes_eq hopen, ?_⟩ (hcloses.takesCloser_eq hopen)
      intro d hd _
      rw [hfaults] at hd
      exact start_ne_of_mem_ofSteps hopen d hd
    · exact iff_of_false hnot (by simp [htakes])
  · intro htakes
    rcases closes_or_takesCloser hopen with hcloses | ⟨htakes', -⟩
    · rw [hcloses.diagnose_eq hopen, hdiagnose, List.dropLast_concat]
    · simp [htakes] at htakes'

/-- A string that goes on in a second line is closed there. -/
theorem closing_edit_mends_second_line :
    (finalModes {} ['"', '\\', '\n', 'x']).top = .inside .string ∧
      ∃ e edit fixed, (diagnose ['"', '\\', '\n', 'x']).getLast? = some e ∧
        e.suggestions.filterMap Suggestion.edit? = [edit] ∧
        edit.apply? ['"', '\\', '\n', 'x'] = some fixed ∧ Mends fixed e.span.start := by
  have hopen : (finalModes {} ['"', '\\', '\n', 'x']).top = .inside .string := by decide +kernel
  have htakes : Region.string.takesCloser ['"', '\\', '\n', 'x'] = false := by decide +kernel
  obtain ⟨e, edit, fixed, he, -, -, hedit, hfixed, -, hmends, -⟩ := closing_edit_mends_iff hopen
  exact ⟨hopen, e, edit, fixed, he, hedit, hfixed, hmends.2 htakes⟩

/-- After a quote and a backslash the closing quote is escaped, and the string unterminated. -/
theorem closing_edit_not_mends_backslash :
    (finalModes {} ['"', '\\']).top = .inside .string ∧
      ∃ e edit fixed, (diagnose ['"', '\\']).getLast? = some e ∧
        e.suggestions.filterMap Suggestion.edit? = [edit] ∧
        edit.apply? ['"', '\\'] = some fixed ∧ ¬Mends fixed e.span.start := by
  refine ⟨by decide +kernel, .unterminatedString ⟨0, 2⟩, ⟨.point 2, ['"']⟩, ['"', '\\', '"'],
    by decide +kernel, rfl, by decide, ?_⟩
  intro hmends
  have hfault : .unterminatedString ⟨0, 3⟩ ∈ diagnose ['"', '\\', '"'] := by decide +kernel
  exact hmends.start_ne _ hfault (.inl rfl) rfl

/-- The slash and the star make an opener, and the doc comment stays open. -/
example : (finalModes {} ['/', '*', '*', ' ', '/', '*', '/']).top = .inside .docComment := by
  decide +kernel

end Tokenizer
