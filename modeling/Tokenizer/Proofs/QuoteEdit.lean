import Tokenizer.Proofs.ClosingEdit
import Tokenizer.Proofs.Splice

/-!
The edit that closes a string where its line ends. What was an unterminated string becomes an
opening quote, the text of the string and a closing quote. Nothing before it changes, and all that
comes after it moves by the one byte of the quote.
-/
namespace Tokenizer

open CharClass

/-! ### Unterminated strings of a scan -/

theorem filter_gives_stringInvalid :
    rootRules.filter (fun rule => rule.action.gives .stringInvalid) =
      [⟨"string.unterminated", .unterminatedString, .emit .stringInvalid, .stay⟩] := rfl

/-- What the rule of unterminated strings reads: a quote and text of a string, up to a line end. -/
theorem of_match?_unterminatedString {cs : List Char} {m : Match}
    (h : Pattern.unterminatedString.match? cs = some m) :
    ∃ body tail, cs = '"' :: (body ++ tail) ∧ StringBody body ∧
      (∀ c ∈ tail.head?, isLineBreak c = true) ∧ m = ⟨'"' :: body, tail⟩ := by
  cases cs with
  | nil => simp [Pattern.unterminatedString, Pattern.doubleQuote] at h
  | cons c cs =>
    have hc : c = '"' := by
      by_contra hne
      simp [Pattern.unterminatedString, Pattern.doubleQuote, hne] at h
    subst hc
    obtain ⟨body, tail, rfl, hbody, htail⟩ := exists_stringBody cs
    rw [htail.match?_unterminatedString hbody] at h
    obtain ⟨hline, rfl⟩ : tail.head?.any (!isLineBreak ·) = false ∧ ⟨'"' :: body, tail⟩ = m := by
      simpa using h
    refine ⟨body, tail, rfl, hbody, ?_, rfl⟩
    intro c hc
    rw [Option.mem_def.1 hc] at hline
    simpa using hline

/-- The step that gives an unterminated string. -/
theorem step_of_stringInvalid {start : Nat} {modes : ModeStack} {c : Char} {cs : List Char}
    {t : Token} (ht : t ∈ (step start modes c cs).tokens) (hcategory : t.category = .stringInvalid) :
    modes = {} ∧ ∃ body tail, c :: cs = '"' :: (body ++ tail) ∧ StringBody body ∧
      (∀ c ∈ tail.head?, isLineBreak c = true) ∧ t = ⟨.stringInvalid, start, '"' :: body⟩ := by
  have hfault : t.category.isFault = true := by rw [hcategory]; rfl
  have htop : modes.top = .root := top_of_faultMode? ht (by rw [hcategory]; rfl)
  refine ⟨ModeStack.eq_of_top_eq_root htop, ?_⟩
  rcases fault_cases ht hfault with ⟨rule, m, hmem, hmatch, hstep, hgives, -⟩ | ⟨rfl, -⟩
  · rw [htop] at hmem
    rw [hcategory] at hgives
    have hrule : rule ∈ rootRules.filter fun rule => rule.action.gives .stringInvalid :=
      List.mem_filter.2 ⟨hmem, hgives⟩
    rw [filter_gives_stringInvalid, List.mem_singleton] at hrule
    subst hrule
    obtain ⟨body, tail, hcs, hbody, htail, rfl⟩ :=
      of_match?_unterminatedString (Rule.match?_eq_some_iff.1 hmatch).1
    rw [hstep, Step.tokens_of_emit rfl rfl, List.mem_singleton] at ht
    exact ⟨body, tail, hcs, hbody, htail, ht⟩
  · simp at hcategory

/-! ### Strings that are closed -/

/-- The steps read a string: its quotes at `start` and `stop`, and text of the string in between. -/
structure ClosedString (start stop : Nat) (opener : Step) (inner : List Step) (close : Step) :
    Prop where
  opens : opener.Opens .string
  opener_tokens : opener.tokens = [⟨.string, start, ['"']⟩]
  reads : ∀ s ∈ inner, s.ReadsString opener.after
  within : ∀ t ∈ inner.flatMap Step.tokens, start < t.start ∧ t.stop ≤ stop
  close_modes : close.modes = opener.after
  close_after : close.after = opener.modes
  close_tokens : close.tokens = [⟨.string, stop, ['"']⟩]

theorem ClosedString.endModes_eq {start stop : Nat} {opener close : Step} {inner : List Step}
    (h : ClosedString start stop opener inner close) (modes : ModeStack) :
    endModes modes (opener :: (inner ++ [close])) = opener.modes := by
  rw [endModes_cons, endModes_append, endModes_cons, endModes_nil, h.close_after]

section
variable {body tail : List Char} (hbody : StringBody body)

include hbody in
theorem steps_closed_string (start : Nat) (zs : List Char) :
    ∃ opener inner close,
      steps start {} ('"' :: (body ++ '"' :: zs)) =
        opener :: (inner ++ [close]) ++ steps (1 + (start + Text.width ('"' :: body))) {} zs ∧
      opener.modes = {} ∧
      ClosedString start (start + Text.width ('"' :: body)) opener inner close := by
  have hroot : ({} : ModeStack).top = .root := rfl
  have hinside : (⟨[.string]⟩ : ModeStack).top = .inside .string := rfl
  have hnone := match?_unterminatedString_closed hbody zs
  have hwidth : start + 1 + Text.width body = start + Text.width ('"' :: body) :=
    Nat.add_assoc start 1 (Text.width body)
  obtain ⟨inner, hsteps, hinner⟩ :=
    steps_string_body hinside (start + 1) hbody (Or.inl rfl : '"' = '"' ∨ _) zs
  have hclose := step_string_close hinside (start + 1 + Text.width body) zs
  have hlaid := laidFrom_steps (start + 1) ⟨[.string]⟩ (body ++ '"' :: zs)
  have htexts := flatMap_text_tokens_steps (start + 1) ⟨[.string]⟩ (body ++ '"' :: zs)
  rw [hsteps, List.flatMap_append] at hlaid htexts
  rw [List.flatMap_append, flatMap_text_tokens_steps] at htexts
  rw [steps_cons, hclose, hwidth] at hsteps
  refine ⟨⟨start, {}, some ⟨"string.open", .doubleQuote, .emit .string, .push .string⟩, ['"'],
      body ++ '"' :: zs⟩, inner,
    ⟨start + Text.width ('"' :: body), ⟨[.string]⟩,
      some ⟨"string.close", .doubleQuote, .emit .string, .pop⟩, ['"'], zs⟩, ?_, rfl,
    ⟨rfl, rfl⟩, Step.tokens_of_emit rfl rfl, hinner, ?_, rfl, rfl, Step.tokens_of_emit rfl rfl⟩
  · rw [steps_cons, step_root_open hroot start hnone, Nat.add_comm 1, List.cons_append,
      List.append_assoc]
    exact congrArg _ hsteps
  · intro t ht
    have hwithin := ((laidFrom_append _ _ _).1 hlaid).1.within t ht
    rw [List.append_cancel_right htexts] at hwithin
    omega

variable (htail : ∀ c ∈ tail.head?, isLineBreak c = true)

include hbody htail in
theorem steps_unterminated_string (start : Nat) :
    steps start {} ('"' :: (body ++ tail)) =
      [⟨start, {}, some ⟨"string.unterminated", .unterminatedString, .emit .stringInvalid, .stay⟩,
        '"' :: body, tail⟩] ++ steps (start + Text.width ('"' :: body)) {} tail := by
  have hmatch := match?_unterminatedString_line hbody htail
  rw [steps_cons, step_root_unterminated rfl start hmatch (by simp)]
  rfl

include hbody htail in
/-- The closing quote is not seen from before the opening one. -/
theorem replaces_closed_string :
    Replaces ('"' :: (body ++ '"' :: tail)) ('"' :: (body ++ tail)) := by
  have hhead : (body ++ '"' :: tail).head? = some '\'' → (body ++ tail).head? = some '\'' := by
    cases body <;> simp
  refine replaces_of_keeps (.inl rfl) hhead (Pattern.keeps_of_eq_none rfl rfl) ?_
  apply Pattern.keeps_unterminatedString
  · intro front hfront
    exact Pattern.keeps_of_eq_none (match?_unterminatedString_closed hfront _)
      (match?_unterminatedString_closed hfront _)
  · -- the opening quote would be escaped, and the string of another quote would go on
    intro front hfront
    have hlonger : StringBody (front ++ '\\' :: '"' :: body) := hfront.append (.escaped rfl hbody)
    have hmatch : Pattern.unterminatedString.match?
        ('"' :: (front ++ ['\\']) ++ '"' :: (body ++ tail)) =
          some ⟨'"' :: (front ++ '\\' :: '"' :: body), tail⟩ := by
      simpa using match?_unterminatedString_line hlonger htail
    have hlt : tail.length < ('"' :: (body ++ tail)).length := by
      rw [List.length_cons, List.length_append]
      omega
    exact Pattern.keeps_of_lt hmatch hlt

end

/-- Within a string that stays open, unknown escapes are all that is at fault. -/
theorem Diagnostic.of_mem_ofSteps_readsString {modes : ModeStack} {inner : List Step}
    (h : ∀ s ∈ inner, s.ReadsString modes) {opened : Nat} {d : Diagnostic}
    (hd : d ∈ ofSteps opened inner) :
    (∃ c, d.cause = .invalidEscape c) ∧ d.context = .insideString opened ∧
      ∃ t ∈ inner.flatMap Step.tokens, d.span = t.span := by
  obtain ⟨before, s, after, rfl, t, ht, htoken⟩ := exists_step_of_mem_ofSteps hd
  have hstays : ∀ u ∈ before ++ s :: after, u.after.depth ≤ u.modes.depth := by
    intro u hu
    rw [(h u hu).after_eq, (h u hu).modes_eq]
  have hmem : s ∈ before ++ s :: after := by simp
  have hbefore := openedFrom_of_depth_le (fun u hu => hstays u (List.mem_append_left _ hu)) opened
  rw [hbefore, Step.openedAt_of_le (hstays s hmem)] at htoken
  have hcategory := (h s hmem).category t ht
  simp only [List.mem_cons, List.not_mem_nil, or_false] at hcategory
  rcases hcategory with hcategory | hcategory | hcategory
  · simp [ofToken?, hcategory] at htoken
  · simp [ofToken?, hcategory] at htoken
  · simp only [ofToken?, hcategory, Option.some.injEq] at htoken
    subst htoken
    exact ⟨⟨_, rfl⟩, rfl, t, List.mem_flatMap.2 ⟨s, hmem, ht⟩, rfl⟩

/-! ### The faults -/

/-- The faults of a closed string are its unknown escapes; those of the rest move with the quote. -/
theorem faultsFrom_closed_string {body : List Char} (hbody : StringBody body) (opened start : Nat)
    (zs : List Char) :
    ∃ escapes, faultsFrom opened start {} ('"' :: (body ++ '"' :: zs)) =
        escapes ++ (faultsFrom opened (start + Text.width ('"' :: body)) {} zs).map
          (Diagnostic.shift 1) ∧
      ∀ d ∈ escapes, (∃ c, d.cause = .invalidEscape c) ∧ d.context = .insideString start ∧
        start < d.span.start ∧ d.span.stop ≤ start + Text.width ('"' :: body) := by
  obtain ⟨opener, inner, close, hsteps, hmodes, hclosed⟩ := steps_closed_string hbody start zs
  have hafter : endModes {} (opener :: (inner ++ [close])) = {} := by
    rw [hclosed.endModes_eq, hmodes]
  have hwidth : start + Text.width ('"' :: (body ++ '"' :: zs)) =
      1 + (start + Text.width ('"' :: body)) + Text.width zs := by
    have hquote : '"'.utf8Size = 1 := rfl
    simp only [Text.width_cons, Text.width_append, hquote]
    omega
  -- the opening quote is where the string starts, and neither quote is at fault
  have hescapes : Diagnostic.ofSteps opened (opener :: (inner ++ [close])) =
      Diagnostic.ofSteps start inner := by
    have hstart : opener.token.start = start :=
      congrArg Token.start (List.cons.inj hclosed.opener_tokens).1
    rw [Diagnostic.ofSteps, hclosed.opens.openedAt, hstart, hclosed.opener_tokens,
      Diagnostic.ofSteps_append, Diagnostic.ofSteps, hclosed.close_tokens]
    exact List.append_nil _
  refine ⟨Diagnostic.ofSteps start inner, ?_, ?_⟩
  · rw [faultsFrom_of_steps hsteps hafter hwidth, hescapes, ← Diagnostic.relocate_add,
      ← faultsFrom_relocate fun _ _ => rfl]
    exact congrArg _ (faultsFrom_code _ _ _ _)
  · intro d hd
    obtain ⟨hcause, hcontext, t, ht, hspan⟩ :=
      Diagnostic.of_mem_ofSteps_readsString hclosed.reads hd
    rw [hspan]
    exact ⟨hcause, hcontext, hclosed.within t ht⟩

/-! ### The edit -/

/--
In `fixed` the unterminated string `t` of `source` is a string that closes where `t` stops, and
nothing else has changed but the place of what comes after it.
-/
structure ClosesString (source : List Char) (t : Token) (fixed : List Char) : Prop where
  tokens_eq : ∃ earlier inner later,
    tokens {} source = earlier ++ t :: later ∧
    tokens {} fixed = earlier ++ ⟨.string, t.start, ['"']⟩ ::
      (inner ++ ⟨.string, t.stop, ['"']⟩ :: later.map (Token.shift 1)) ∧
    (∀ u ∈ earlier, u.stop ≤ t.start) ∧ ∀ u ∈ later, t.stop ≤ u.start
  region : ∃ earlier opener inner close later,
    scan {} fixed = earlier ++ opener :: (inner ++ close :: later) ∧
    ClosedString t.start t.stop opener inner close
  modes_eq : finalModes {} fixed = finalModes {} source
  faults_eq : ∃ earlier escapes later,
    diagnose source = earlier ++ .unterminatedString t.span :: later ∧
    diagnose fixed = earlier ++ (escapes ++ later.map (Diagnostic.shift 1)) ∧
    ∀ d ∈ escapes, (∃ c, d.cause = .invalidEscape c) ∧ d.context = .insideString t.start ∧
      t.start < d.span.start ∧ d.span.stop ≤ t.stop

theorem faultsFrom_unterminated_string {body tail : List Char} (hbody : StringBody body)
    (htail : ∀ c ∈ tail.head?, isLineBreak c = true) (opened start : Nat) :
    faultsFrom opened start {} ('"' :: (body ++ tail)) =
      .unterminatedString ⟨start, start + Text.width ('"' :: body)⟩ ::
        faultsFrom opened (start + Text.width ('"' :: body)) {} tail := by
  have hmatch := match?_unterminatedString_line hbody htail
  rw [faultsFrom_cons (step_root_unterminated rfl start hmatch (by simp)) rfl,
    Step.tokens_of_emit rfl rfl]
  rfl

section
variable {before after : List Step} {body tail : List Char} (hbody : StringBody body)
  (htail : ∀ c ∈ tail.head?, isLineBreak c = true)
  (hscan : scan {} (before.flatMap Step.text ++ '"' :: (body ++ tail)) = before ++ after)
  (hmodes : endModes {} before = {}) {t : Token}
  (ht : t = ⟨.stringInvalid, Text.width (before.flatMap Step.text), '"' :: body⟩)
include hbody htail hscan hmodes ht

theorem tokens_closed_string :
    ∃ earlier inner later,
      tokens {} (before.flatMap Step.text ++ '"' :: (body ++ tail)) = earlier ++ t :: later ∧
      tokens {} (before.flatMap Step.text ++ '"' :: (body ++ '"' :: tail)) =
        earlier ++ ⟨.string, t.start, ['"']⟩ ::
          (inner ++ ⟨.string, t.stop, ['"']⟩ :: later.map (Token.shift 1)) ∧
      (∀ u ∈ earlier, u.stop ≤ t.start) ∧ ∀ u ∈ later, t.stop ≤ u.start := by
  obtain ⟨opener, inner, close, hsteps, -, hclosed⟩ := steps_closed_string hbody t.start tail
  have hstop : t.start + Text.width ('"' :: body) = t.stop := by rw [ht]; rfl
  have hsource : tokens {} (before.flatMap Step.text ++ '"' :: (body ++ tail)) =
      before.flatMap Step.tokens ++ t :: (steps t.stop {} tail).flatMap Step.tokens := by
    rw [tokens_of_replaces (replaces_refl _) hscan, hmodes, steps_unterminated_string hbody htail,
      List.flatMap_append, List.flatMap_singleton, Step.tokens_of_emit rfl rfl, ht]
    rfl
  have hlater : (steps (1 + t.stop) {} tail).flatMap Step.tokens =
      ((steps t.stop {} tail).flatMap Step.tokens).map (Token.shift 1) := by
    rw [steps_add, List.flatMap_map, List.map_flatMap]
    simp only [Step.tokens_shift]
  refine ⟨before.flatMap Step.tokens, inner.flatMap Step.tokens, _, hsource, ?_, ?_, ?_⟩
  · have hstart : Text.width (before.flatMap Step.text) = t.start := by rw [ht]
    rw [tokens_of_replaces (replaces_closed_string hbody htail) hscan, hmodes, hstart, hsteps,
      hstop, List.flatMap_append, hlater, List.flatMap_cons, List.flatMap_append,
      List.flatMap_singleton, hclosed.opener_tokens, hclosed.close_tokens, hstop]
    simp only [List.append_assoc, List.cons_append, List.nil_append]
  all_goals
    have hlaid := laidFrom_steps 0 {} (before.flatMap Step.text ++ '"' :: (body ++ tail))
    change LaidFrom 0 (tokens {} _) at hlaid
    rw [hsource, laidFrom_append] at hlaid
    obtain ⟨hearlier, hstart, -, hlater⟩ := hlaid
  · intro u hu
    rw [hstart]
    exact (hearlier.within u hu).2
  · intro u hu
    exact (hlater.within u hu).1

theorem region_closed_string :
    ∃ earlier opener inner close later,
      scan {} (before.flatMap Step.text ++ '"' :: (body ++ '"' :: tail)) =
        earlier ++ opener :: (inner ++ close :: later) ∧
      ClosedString t.start t.stop opener inner close := by
  obtain ⟨opener, inner, close, hsteps, -, hclosed⟩ := steps_closed_string hbody t.start tail
  obtain ⟨taken, -, hfixed⟩ := steps_of_replaces (replaces_closed_string hbody htail) hscan
  have hstart : 0 + Text.width (before.flatMap Step.text) = t.start := by rw [ht, Nat.zero_add]
  have hstop : t.start + Text.width ('"' :: body) = t.stop := by rw [ht]; rfl
  rw [hstart, hmodes, hsteps, List.cons_append, List.append_assoc, List.singleton_append] at hfixed
  rw [hstop] at hclosed
  exact ⟨_, opener, inner, close, _, hfixed, hclosed⟩

omit ht in
theorem finalModes_closed_string :
    finalModes {} (before.flatMap Step.text ++ '"' :: (body ++ '"' :: tail)) =
      finalModes {} (before.flatMap Step.text ++ '"' :: (body ++ tail)) := by
  obtain ⟨opener, inner, close, hsteps, hroot, hclosed⟩ := steps_closed_string hbody 0 tail
  have hafter : endModes {} (opener :: (inner ++ [close])) = {} := by
    rw [hclosed.endModes_eq, hroot]
  have hclosing : finalModes {} ('"' :: (body ++ '"' :: tail)) = finalModes {} tail := by
    rw [← endModes_steps 0, hsteps, endModes_append, hafter, endModes_steps]
  have hunterminated : finalModes {} ('"' :: (body ++ tail)) = finalModes {} tail := by
    rw [← endModes_steps 0, steps_unterminated_string hbody htail, endModes_append]
    exact endModes_steps _ _ _
  rw [finalModes_of_replaces (replaces_closed_string hbody htail) hscan,
    finalModes_of_replaces (replaces_refl _) hscan, hmodes, hclosing, hunterminated]

theorem diagnose_closed_string :
    ∃ earlier escapes later,
      diagnose (before.flatMap Step.text ++ '"' :: (body ++ tail)) =
        earlier ++ .unterminatedString t.span :: later ∧
      diagnose (before.flatMap Step.text ++ '"' :: (body ++ '"' :: tail)) =
        earlier ++ (escapes ++ later.map (Diagnostic.shift 1)) ∧
      ∀ d ∈ escapes, (∃ c, d.cause = .invalidEscape c) ∧ d.context = .insideString t.start ∧
        t.start < d.span.start ∧ d.span.stop ≤ t.stop := by
  obtain ⟨escapes, hfaults, hescapes⟩ :=
    faultsFrom_closed_string hbody (openedFrom 0 before) t.start tail
  have hstart : Text.width (before.flatMap Step.text) = t.start := by rw [ht]
  have hstop : t.start + Text.width ('"' :: body) = t.stop := by rw [ht]; rfl
  rw [hstop] at hfaults hescapes
  refine ⟨Diagnostic.ofSteps 0 before, escapes, faultsFrom (openedFrom 0 before) t.stop {} tail,
    ?_, ?_, hescapes⟩
  · rw [diagnose_of_replaces (replaces_refl _) hscan, hmodes,
      faultsFrom_unterminated_string hbody htail, hstart, hstop]
    rfl
  · rw [diagnose_of_replaces (replaces_closed_string hbody htail) hscan, hmodes, hstart, hfaults]

end

/--
The edit that is suggested for an unterminated string puts a quote where the string stops. That
quote, and nothing before it, closes the string.
-/
theorem closing_quote_edit_closes {source : List Char} {t : Token} (ht : t ∈ tokens {} source)
    (hcategory : t.category = .stringInvalid) :
    ∃ edit fixed, .unterminatedString t.span ∈ diagnose source ∧
      (Diagnostic.unterminatedString t.span).suggestions.filterMap Suggestion.edit? = [edit] ∧
      edit = ⟨.point t.stop, ['"']⟩ ∧ edit.apply? source = some fixed ∧
      ClosesString source t fixed := by
  obtain ⟨s, hs, hts⟩ := List.mem_flatMap.1 ht
  obtain ⟨before, after, hscan⟩ := List.append_of_mem hs
  obtain ⟨c, rest, rfl, rfl, -⟩ := steps_eq_append_cons hscan
  obtain ⟨hmodes, body, tail, hrest, hbody, htail, rfl⟩ := step_of_stringInvalid hts hcategory
  rw [Nat.zero_add] at hscan hts ⊢
  rw [hrest] at hscan ⊢
  have hclosed : ClosesString (before.flatMap Step.text ++ '"' :: (body ++ tail))
      ⟨.stringInvalid, Text.width (before.flatMap Step.text), '"' :: body⟩
      (before.flatMap Step.text ++ '"' :: (body ++ '"' :: tail)) :=
    ⟨tokens_closed_string hbody htail hscan hmodes rfl,
      region_closed_string hbody htail hscan hmodes rfl,
      finalModes_closed_string hbody htail hscan hmodes,
      diagnose_closed_string hbody htail hscan hmodes rfl⟩
  refine ⟨_, _, ?_, rfl, rfl, ?_, hclosed⟩
  · obtain ⟨earlier, escapes, later, hfaults, -⟩ := hclosed.faults_eq
    rw [hfaults]
    exact List.mem_append_right _ List.mem_cons_self
  · have happly := Edit.apply?_append (before.flatMap Step.text ++ '"' :: body) [] tail ['"']
    rw [Text.width_append] at happly
    simpa [Span.point, Token.span, Token.stop] using happly

/-- A string with an escaped quote and an unknown escape, and a stray quote in the next line. -/
theorem closing_quote_edit_closes_escapes :
    ⟨.stringInvalid, 1, ['"', '\\', '"', 'é', '\\', 'q']⟩ ∈
        tokens {} ['=', '"', '\\', '"', 'é', '\\', 'q', '\n', '\''] ∧
      ∃ fixed, Edit.apply? ⟨.point 8, ['"']⟩
          ['=', '"', '\\', '"', 'é', '\\', 'q', '\n', '\''] = some fixed ∧
        ClosesString ['=', '"', '\\', '"', 'é', '\\', 'q', '\n', '\'']
          ⟨.stringInvalid, 1, ['"', '\\', '"', 'é', '\\', 'q']⟩ fixed := by
  have ht : ⟨.stringInvalid, 1, ['"', '\\', '"', 'é', '\\', 'q']⟩ ∈
      tokens {} ['=', '"', '\\', '"', 'é', '\\', 'q', '\n', '\''] := by
    decide +kernel
  obtain ⟨edit, fixed, -, -, rfl, hfixed, hcloses⟩ := closing_quote_edit_closes ht rfl
  exact ⟨ht, fixed, hfixed, hcloses⟩

end Tokenizer
