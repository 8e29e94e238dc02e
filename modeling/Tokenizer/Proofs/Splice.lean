import Tokenizer.Proofs.ClosingText
import Tokenizer.Proofs.Relocation

/-!
A change behind a text. The steps that read a text are taken as before when something else comes
to stand behind it, if no rule changes its mind: what found nothing still finds nothing, and what
stopped within the text stops at the same place.
-/
namespace Tokenizer

open CharClass

namespace Pattern

/-- The pattern does not change its mind about `xs` when `ws` follows it in place of `zs`. -/
structure Keeps (a : Pattern) (xs zs ws : List Char) : Prop where
  fails : a.match? (xs ++ zs) = none → a.match? (xs ++ ws) = none
  stops : ∀ {text rest}, a.match? (xs ++ zs) = some ⟨text, rest ++ zs⟩ →
    a.match? (xs ++ ws) = some ⟨text, rest ++ ws⟩

section
variable {a b : Pattern} {xs zs ws : List Char}

theorem keeps_of_extends (hz : a.Extends xs zs) (hw : a.Extends xs ws) : a.Keeps xs zs ws where
  fails := by
    intro h
    rw [Extends.eq_1] at hz hw
    rw [hz, Option.map_eq_none_iff] at h
    rw [hw, h]
    rfl
  stops := by
    intro text rest h
    unfold Extends at hz hw
    rw [hz] at h
    obtain ⟨m, hm, heq⟩ := Option.map_eq_some_iff.1 h
    obtain ⟨rfl, hrest⟩ : m.text = text ∧ m.rest ++ zs = rest ++ zs := by
      simpa [Match.extend] using heq
    obtain rfl := List.append_cancel_right hrest
    rw [hw, hm]
    rfl

theorem keeps_of_avoids {z : Char} (h : a.avoids z = true) (xs us vs : List Char) :
    a.Keeps xs (z :: us) (z :: vs) :=
  keeps_of_extends (extends_of_avoids h xs us) (extends_of_avoids h xs vs)

theorem keeps_of_eq_none (hz : a.match? (xs ++ zs) = none) (hw : a.match? (xs ++ ws) = none) :
    a.Keeps xs zs ws where
  fails _ := hw
  stops h := by simp [hz] at h

/-- A match that goes on past the text says nothing about it. -/
theorem keeps_of_lt {m : Match} (h : a.match? (xs ++ zs) = some m)
    (hlt : m.rest.length < zs.length) : a.Keeps xs zs ws where
  fails hnone := by simp [h] at hnone
  stops := by
    intro text rest hm
    obtain rfl : m = ⟨text, rest ++ zs⟩ := Option.some.inj (h.symm.trans hm)
    rw [List.length_append] at hlt
    omega

theorem keeps_run {p : Char → Bool} {z : Char} (hz : p z = true) (xs us vs : List Char) :
    (run p).Keeps xs (z :: us) (z :: vs) := by
  by_cases hall : ∀ x ∈ xs, p x = true
  · apply keeps_of_lt rfl
    have hdrop := List.length_dropWhile_le p us
    simp only [List.dropWhile_append_of_pos hall, List.dropWhile_cons_of_pos hz, List.length_cons]
    omega
  · exact keeps_of_extends (extends_run hall _) (extends_run hall _)

theorem Keeps.append (hz : a.Extends xs zs) (hw : a.Extends xs ws)
    (hb : ∀ m, a.match? xs = some m → b.Keeps m.rest zs ws) : (a ++ b).Keeps xs zs ws := by
  unfold Extends at hz hw
  cases hm : a.match? xs with
  | none =>
    rw [hm, Option.map_none] at hz hw
    exact keeps_of_eq_none (by simp [hz]) (by simp [hw])
  | some m =>
    have hkeeps := hb m hm
    rw [hm] at hz hw
    constructor
    · intro hnone
      have hrest : b.match? (m.rest ++ zs) = none := by simpa [hz, Match.extend] using hnone
      simp [hw, Match.extend, hkeeps.fails hrest]
    · intro text rest hsome
      obtain ⟨n, hn, heq⟩ : ∃ n, b.match? (m.rest ++ zs) = some n ∧
          (m.extend zs).append n = ⟨text, rest ++ zs⟩ := by
        simpa [hz, Match.extend] using hsome
      obtain ⟨rfl, hrest⟩ : m.text ++ n.text = text ∧ n.rest = rest ++ zs := by
        simpa [Match.append, Match.extend] using heq
      have hstops := hkeeps.stops (hn.trans (by rw [← hrest]))
      simp [hw, Match.extend, hstops, Match.append]

theorem keeps_run1 {p : Char → Bool} {z : Char} (hz : p z = true) {xs : List Char} (hne : xs ≠ [])
    (us vs : List Char) : (run1 p).Keeps xs (z :: us) (z :: vs) := by
  obtain ⟨c, cs, rfl⟩ := List.exists_cons_of_ne_nil hne
  cases hc : p c with
  | false => exact keeps_of_eq_none (by simp [hc]) (by simp [hc])
  | true =>
    have hrun (ts : List Char) : (run1 p).match? (c :: cs ++ ts) = (run p).match? (c :: cs ++ ts) :=
      match?_run1_of_pos hc (cs ++ ts)
    obtain ⟨hfails, hstops⟩ := keeps_run hz (c :: cs) us vs
    constructor
    · rwa [hrun, hrun]
    · rwa [hrun, hrun]

end
end Pattern

/-! ### Rules -/

namespace Rule

variable {rule : Rule} {xs zs ws : List Char}

theorem match?_eq_none_of_keeps (h : rule.pattern.Keeps xs zs ws)
    (hnone : rule.match? (xs ++ zs) = none) : rule.match? (xs ++ ws) = none := by
  cases hm : rule.pattern.match? (xs ++ zs) with
  | none =>
    rw [match?, h.fails hm]
    rfl
  | some m =>
    -- an empty match is an empty match again
    have hnil : m.text = [] := by simpa [match?, hm] using hnone
    have hrest : m.rest = xs ++ zs := by simpa [hnil] using rule.pattern.match?_split hm
    have hstops := h.stops (hm.trans (by rw [← hrest]))
    rw [match?, hstops]
    simp [hnil]

theorem match?_of_keeps (h : rule.pattern.Keeps xs zs ws) {text rest : List Char}
    (hm : rule.match? (xs ++ zs) = some ⟨text, rest ++ zs⟩) :
    rule.match? (xs ++ ws) = some ⟨text, rest ++ ws⟩ := by
  obtain ⟨hm, hne⟩ := match?_eq_some_iff.1 hm
  exact match?_eq_some_iff.2 ⟨h.stops hm, hne⟩

variable {rules : List Rule} (h : ∀ rule ∈ rules, rule.pattern.Keeps xs zs ws)
include h

theorem first?_eq_none_of_keeps (hnone : first? rules (xs ++ zs) = none) :
    first? rules (xs ++ ws) = none := by
  simp only [first?, List.findSome?_eq_none_iff, Option.map_eq_none_iff] at hnone ⊢
  intro rule hmem
  exact match?_eq_none_of_keeps (h rule hmem) (hnone rule hmem)

theorem first?_of_keeps {found : Rule} {text rest : List Char}
    (hfirst : first? rules (xs ++ zs) = some (found, ⟨text, rest ++ zs⟩)) :
    first? rules (xs ++ ws) = some (found, ⟨text, rest ++ ws⟩) := by
  induction rules with
  | nil => simp [first?] at hfirst
  | cons rule rules ih =>
    obtain ⟨hrule, hrules⟩ := List.forall_mem_cons.1 h
    cases hm : rule.match? (xs ++ zs) with
    | none =>
      rw [first?_cons_of_eq_none hm] at hfirst
      rw [first?_cons_of_eq_none (match?_eq_none_of_keeps hrule hm)]
      exact ih hrules hfirst
    | some m =>
      rw [first?_cons_of_match? hm] at hfirst
      obtain ⟨rfl, rfl⟩ : rule = found ∧ m = ⟨text, rest ++ zs⟩ := by simpa using hfirst
      rw [first?_cons_of_match? (match?_of_keeps hrule hm)]

end Rule

/-! ### Steps -/

theorem step_of_keeps {modes : ModeStack} {c : Char} {cs zs ws : List Char}
    (h : ∀ rule ∈ modes.top.rules, rule.pattern.Keeps (c :: cs) zs ws) {start : Nat} {s : Step}
    (hs : step start modes c (cs ++ zs) = s.extend zs) :
    step start modes c (cs ++ ws) = s.extend ws := by
  obtain ⟨n, modes', rule?, text, rest⟩ := s
  rw [step, ← List.cons_append] at hs ⊢
  cases hfirst : Rule.first? modes.top.rules (c :: cs ++ zs) with
  | none =>
    rw [hfirst] at hs
    rw [Rule.first?_eq_none_of_keeps h hfirst]
    obtain ⟨rfl, rfl, rfl, rfl, hrest⟩ :
        start = n ∧ modes = modes' ∧ none = rule? ∧ [c] = text ∧ cs ++ zs = rest ++ zs := by
      simpa [Step.extend] using hs
    obtain rfl := List.append_cancel_right hrest
    rfl
  | some found =>
    obtain ⟨rule, m⟩ := found
    rw [hfirst] at hs
    obtain ⟨rfl, rfl, rfl, rfl, hrest⟩ :
        start = n ∧ modes = modes' ∧ some rule = rule? ∧ m.text = text ∧ m.rest = rest ++ zs := by
      simpa [Step.extend] using hs
    have hkept := Rule.first?_of_keeps h (hfirst.trans (by rw [← hrest]))
    rw [hkept]
    rfl

/-- No rule changes its mind about any text when `ws` comes to follow it in place of `zs`. -/
def Replaces (ws zs : List Char) : Prop :=
  ∀ mode : Mode, ∀ rule ∈ mode.rules, ∀ c cs, rule.pattern.Keeps (c :: cs) zs ws

theorem replaces_refl (zs : List Char) : Replaces zs zs := fun _ _ _ _ _ => ⟨id, id⟩

/-- The steps up to a change are taken as before. -/
theorem steps_of_replaces {zs ws : List Char} (h : Replaces ws zs) {start : Nat}
    {modes : ModeStack} {before after : List Step}
    (hsteps : steps start modes (before.flatMap Step.text ++ zs) = before ++ after) :
    ∃ taken : List Step, before = taken.map (·.extend zs) ∧
      steps start modes (before.flatMap Step.text ++ ws) = taken.map (·.extend ws) ++
        steps (start + Text.width (before.flatMap Step.text)) (endModes modes before) ws := by
  induction before generalizing start modes with
  | nil => exact ⟨[], rfl, by simp⟩
  | cons s before ih =>
    obtain ⟨c, rest, hsplit, hs, hafter⟩ :=
      steps_eq_append_cons (hsteps.trans (List.nil_append _).symm)
    rw [List.flatMap_nil, List.nil_append] at hsplit
    rw [List.flatMap_nil, Text.width_nil, Nat.add_zero, endModes_nil] at hs
    rw [List.flatMap_cons, List.append_assoc] at hsplit ⊢
    -- the step reads `c` at least, and leaves what the other steps and then `zs` read
    obtain ⟨d, text, htext⟩ : ∃ d text, s.text = d :: text := by
      rw [hs]
      exact List.exists_cons_of_ne_nil (step_text_ne_nil start modes c rest)
    obtain ⟨rfl, rfl⟩ : d = c ∧ text ++ (before.flatMap Step.text ++ zs) = rest := by
      simpa [htext] using hsplit
    have hrest : s.rest = before.flatMap Step.text ++ zs := by
      have hstep := step_split start modes d (text ++ (before.flatMap Step.text ++ zs))
      rw [← hs, htext, List.cons_append, List.cons.injEq] at hstep
      exact List.append_cancel_left hstep.2
    have hextend : s = Step.extend { s with rest := before.flatMap Step.text } zs := by
      rw [Step.extend, ← hrest]
    rw [← List.append_assoc] at hs
    have hkept := step_of_keeps (fun rule hrule => h _ rule hrule _ _) (hs.symm.trans hextend)
    rw [hrest] at hafter
    obtain ⟨taken, hbefore, hws⟩ := ih hafter.symm
    refine ⟨{ s with rest := before.flatMap Step.text } :: taken, ?_, ?_⟩
    · rw [List.map_cons, ← hextend, ← hbefore]
    · have hwhole : s.text ++ (before.flatMap Step.text ++ ws) =
          d :: (text ++ before.flatMap Step.text ++ ws) := by
        simp [htext]
      have hwidth : start + Text.width (s.text ++ before.flatMap Step.text) =
          s.stop + Text.width (before.flatMap Step.text) := by
        rw [Text.width_append, Step.stop, hs, step_start, Nat.add_assoc]
      rw [hwhole, steps_cons, hkept, hwidth]
      exact congrArg _ hws

section
variable {zs ws : List Char} (h : Replaces ws zs) {before after : List Step}
  (hscan : scan {} (before.flatMap Step.text ++ zs) = before ++ after)
include h hscan

/-- The tokens before a change stay. -/
theorem tokens_of_replaces :
    tokens {} (before.flatMap Step.text ++ ws) = before.flatMap Step.tokens ++
      (steps (Text.width (before.flatMap Step.text)) (endModes {} before) ws).flatMap Step.tokens := by
  obtain ⟨taken, hbefore, hsteps⟩ := steps_of_replaces h hscan
  have htokens : (taken.map (·.extend ws)).flatMap Step.tokens = before.flatMap Step.tokens := by
    rw [hbefore, List.flatMap_map, List.flatMap_map]
    rfl
  rw [tokens, scan, hsteps, List.flatMap_append, htokens, Nat.zero_add]

theorem finalModes_of_replaces :
    finalModes {} (before.flatMap Step.text ++ ws) = finalModes (endModes {} before) ws := by
  obtain ⟨taken, hbefore, hsteps⟩ := steps_of_replaces h hscan
  have hmodes : endModes {} (taken.map (·.extend ws)) = endModes {} before := by
    rw [hbefore, endModes_map_extend, endModes_map_extend]
  rw [finalModes, scan, hsteps, endModes_append, hmodes, endModes_steps]

/-- The faults before a change stay. -/
theorem diagnose_of_replaces :
    diagnose (before.flatMap Step.text ++ ws) = Diagnostic.ofSteps 0 before ++
      faultsFrom (openedFrom 0 before) (Text.width (before.flatMap Step.text))
        (endModes {} before) ws := by
  obtain ⟨taken, hbefore, hsteps⟩ := steps_of_replaces h hscan
  have hmodes : endModes {} (taken.map (·.extend ws)) = endModes {} before := by
    rw [hbefore, endModes_map_extend, endModes_map_extend]
  have hfaults : Diagnostic.ofSteps 0 (taken.map (·.extend ws)) = Diagnostic.ofSteps 0 before := by
    rw [hbefore, Diagnostic.ofSteps_map_extend, Diagnostic.ofSteps_map_extend]
  have hopened : openedFrom 0 (taken.map (·.extend ws)) = openedFrom 0 before := by
    rw [hbefore, openedFrom_map_extend, openedFrom_map_extend]
  rw [diagnose_eq_faultsFrom, faultsFrom_of_steps hsteps hmodes, hfaults, hopened, Nat.zero_add]
  simp only [Text.width_append, Nat.zero_add]

end

/-- Replacing a stretch between two texts. -/
theorem Edit.apply?_append (before old after text : List Char) :
    Edit.apply? ⟨⟨Text.width before, Text.width before + Text.width old⟩, text⟩
      (before ++ (old ++ after)) = some (before ++ (text ++ after)) := by
  unfold Edit.apply?
  simp [Span.length?]

/-! ### Changes behind a quote or a backslash -/

/-- The rules of a mode with a class that holds double quotes or backslashes. -/
def Mode.quotedRules : Mode → List Rule
  | root =>
    [⟨"comment.line", .lineComment, .emit .lineComment, .stay⟩,
      ⟨"string.unterminated", .unterminatedString, .emit .stringInvalid, .stay⟩,
      ⟨"string.open", .doubleQuote, .emit .string, .push .string⟩,
      ⟨"char", .charLiteral, .emit .char, .stay⟩,
      ⟨"char.escape", .charEscapeLiteral, .enclosed .char .stringEscape, .stay⟩]
  | whitespace => [⟨"comment.line", .lineComment, .emit .lineComment, .stay⟩]
  | inside .blockComment => [⟨"comment.text", .commentText, .emit .blockComment, .stay⟩]
  | inside .docComment => [⟨"doc.text", .commentText, .emit .docComment, .stay⟩]
  | inside .string =>
    [⟨"string.escape", .escape, .emit .stringEscape, .stay⟩,
      ⟨"string.escape.invalid", .anyEscape, .emit .stringEscapeInvalid, .stay⟩,
      ⟨"string.close", .doubleQuote, .emit .string, .pop⟩]

theorem Mode.filter_avoids_quotes (mode : Mode) :
    mode.rules.filter (fun rule => !(rule.pattern.avoids '"' && rule.pattern.avoids '\\')) =
      mode.quotedRules := by
  cases mode with
  | inside region => cases region <;> rfl
  | _ => rfl

namespace Pattern

section
variable {z : Char} (hz : z = '"' ∨ z = '\\') (c : Char) (cs us vs : List Char)
include hz

theorem keeps_lineComment : lineComment.Keeps (c :: cs) (z :: us) (z :: vs) := by
  obtain ⟨havoids, hline⟩ : (literal ['/', '/']).avoids z = true ∧ (!isLineBreak z) = true := by
    rcases hz with rfl | rfl <;> decide
  exact .append (extends_of_avoids havoids _ _) (extends_of_avoids havoids _ _)
    fun m _ => keeps_run hline m.rest us vs

theorem keeps_commentText : commentText.Keeps (c :: cs) (z :: us) (z :: vs) := by
  refine keeps_run1 ?_ (by simp) us vs
  rcases hz with rfl | rfl <;> rfl

/-- An escape is settled within the text, unless the text is a single backslash. -/
theorem extends_escape_of_ne (hne : c :: cs ≠ ['\\']) : escape.Extends (c :: cs) (z :: us) := by
  refine (extends_one _ (by simp) _).append ?_
  intro m hm
  obtain ⟨rest, hcs, rfl⟩ := match?_char_eq_some.1 hm
  have hrest : rest ≠ [] := by
    rintro rfl
    exact hne hcs
  exact extends_escapeBody hrest (by rcases hz with rfl | rfl <;> decide) us

theorem match?_escape_alone : escape.match? ('\\' :: z :: us) = some ⟨['\\', z], us⟩ := by
  rcases hz with rfl | rfl <;> rfl

theorem keeps_escape : escape.Keeps (c :: cs) (z :: us) (z :: vs) := by
  by_cases halone : c :: cs = ['\\']
  · rw [halone]
    exact keeps_of_lt (match?_escape_alone hz us) (Nat.lt_succ_self _)
  · exact keeps_of_extends (extends_escape_of_ne hz c cs us halone)
      (extends_escape_of_ne hz c cs vs halone)

theorem keeps_anyEscape : anyEscape.Keeps (c :: cs) (z :: us) (z :: vs) := by
  by_cases halone : c :: cs = ['\\']
  · have hmatch : anyEscape.match? (['\\'] ++ z :: us) = some ⟨['\\', z], us⟩ := by
      rcases hz with rfl | rfl <;> rfl
    rw [halone]
    exact keeps_of_lt hmatch (Nat.lt_succ_self _)
  · refine .append (extends_one _ (by simp) _) (extends_one _ (by simp) _) ?_
    intro m hm
    obtain ⟨rest, hcs, rfl⟩ := match?_char_eq_some.1 hm
    have hrest : rest ≠ [] := by
      rintro rfl
      exact halone hcs
    exact keeps_of_extends (extends_one _ hrest _) (extends_one _ hrest _)

omit hz in
/-- The closing quote of a character literal is still missing when the text ends. -/
theorem keeps_closingQuote {a : Pattern} {xs text us vs : List Char}
    (hhead : vs.head? = some '\'' → us.head? = some '\'')
    (hus : a.match? (xs ++ z :: us) = some ⟨text, us⟩)
    (hvs : a.match? (xs ++ z :: vs) = some ⟨text, vs⟩) :
    (a ++ singleQuote).Keeps xs (z :: us) (z :: vs) := by
  cases hm : singleQuote.match? us with
  | some m =>
    have hmatch : (a ++ singleQuote).match? (xs ++ z :: us) = some ⟨text ++ m.text, m.rest⟩ := by
      simp [hus, hm, Match.append]
    apply keeps_of_lt hmatch
    have hlength := congrArg List.length (singleQuote.match?_split hm)
    simp only [List.length_append, List.length_cons] at hlength ⊢
    omega
  | none =>
    have hnone : singleQuote.match? vs = none := by
      rw [Option.eq_none_iff_forall_ne_some]
      intro m hv
      obtain ⟨rest, rfl, -⟩ := match?_char_eq_some.1 hv
      obtain ⟨rest', rfl⟩ := List.head?_eq_some_iff.1 (hhead rfl)
      simp [singleQuote] at hm
    exact keeps_of_eq_none (by simp [hus, hm]) (by simp [hvs, hnone])

theorem keeps_charLiteral {us vs : List Char}
    (hhead : vs.head? = some '\'' → us.head? = some '\'') :
    charLiteral.Keeps (c :: cs) (z :: us) (z :: vs) := by
  have hquote : singleQuote.avoids z = true := by rcases hz with rfl | rfl <;> decide
  by_cases halone : c :: cs = ['\'']
  · rw [halone]
    rcases hz with rfl | rfl
    · exact keeps_closingQuote hhead rfl rfl
    · exact keeps_of_eq_none rfl rfl
  · have hextends (ws : List Char) : charLiteral.Extends (c :: cs) (z :: ws) := by
      refine ((extends_one _ (by simp) _).append ?_).append ?_
      · intro m hm
        obtain ⟨rest, hcs, rfl⟩ := match?_char_eq_some.1 hm
        apply extends_one
        rintro rfl
        exact halone hcs
      · intro m _
        exact extends_of_avoids hquote _ _
    exact keeps_of_extends (hextends us) (hextends vs)

theorem keeps_charEscapeLiteral {us vs : List Char}
    (hhead : vs.head? = some '\'' → us.head? = some '\'')
    (hescape : charEscapeLiteral.Keeps ['\''] (z :: us) (z :: vs)) :
    charEscapeLiteral.Keeps (c :: cs) (z :: us) (z :: vs) := by
  have hquote : singleQuote.avoids z = true := by rcases hz with rfl | rfl <;> decide
  by_cases halone : c :: cs = ['\'']
  · rw [halone]
    exact hescape
  by_cases hback : c :: cs = ['\'', '\\']
  · have hmatch (ws : List Char) : (singleQuote ++ escape).match? (['\'', '\\'] ++ z :: ws) =
        some ⟨['\'', '\\', z], ws⟩ := by
      have hrest := match?_escape_alone hz ws
      simp [singleQuote, hrest, Match.append]
    rw [hback]
    exact keeps_closingQuote hhead (hmatch us) (hmatch vs)
  · have hextends (ws : List Char) : charEscapeLiteral.Extends (c :: cs) (z :: ws) := by
      refine ((extends_one _ (by simp) _).append ?_).append ?_
      · intro m hm
        obtain ⟨rest, hcs, rfl⟩ := match?_char_eq_some.1 hm
        cases rest with
        | nil => exact absurd hcs halone
        | cons d ds =>
          apply extends_escape_of_ne hz
          intro hds
          rw [hcs, hds] at hback
          exact hback rfl
      · intro m _
        exact extends_of_avoids hquote _ _
    exact keeps_of_extends (hextends us) (hextends vs)

end

/-- A string is seen to be closed, or not, within the text, unless its line goes on behind it. -/
theorem keeps_unterminatedString {zs ws : List Char}
    (hbody : ∀ body, StringBody body → unterminatedString.Keeps ('"' :: body) zs ws)
    (hdangling : ∀ body, StringBody body →
      unterminatedString.Keeps ('"' :: (body ++ ['\\'])) zs ws) (c : Char) (cs : List Char) :
    unterminatedString.Keeps (c :: cs) zs ws := by
  by_cases hc : c = '"'
  swap
  · have hnone (rest : List Char) : unterminatedString.match? (c :: rest) = none := by
      simp [unterminatedString, doubleQuote, hc]
    exact keeps_of_eq_none (hnone _) (hnone _)
  subst hc
  obtain ⟨body, tail, rfl, hb, htail⟩ := exists_stringBody cs
  cases htail with
  | quote tail =>
    exact keeps_of_extends (.of_stringStop hb (.quote _) (.quote _) (by simp))
      (.of_stringStop hb (.quote _) (.quote _) (by simp))
  | @dangling tail hbreak =>
    cases tail with
    | nil => exact hdangling body hb
    | cons d tail =>
      exact keeps_of_extends (.of_stringStop hb (.dangling hbreak) (.dangling hbreak) (by simp))
        (.of_stringStop hb (.dangling hbreak) (.dangling hbreak) (by simp))
  | line hbreak =>
    cases tail with
    | nil =>
      rw [List.append_nil]
      exact hbody body hb
    | cons d tail =>
      exact keeps_of_extends (.of_stringStop hb (.line hbreak) (.line hbreak) (by simp))
        (.of_stringStop hb (.line hbreak) (.line hbreak) (by simp))

/-- A string of one line is closed, or not, by what follows its text. -/
theorem keeps_of_stringStop {xs us vs tail : List Char} (htail : StringStop tail)
    (hus : StringBody (xs ++ us)) (hvs : StringBody (xs ++ vs)) (hne : us ≠ []) :
    unterminatedString.Keeps ('"' :: xs) (us ++ tail) (vs ++ tail) := by
  have hold := htail.match?_unterminatedString hus
  have hnew := htail.match?_unterminatedString hvs
  rw [List.append_assoc] at hold hnew
  cases hline : tail.head?.any (!isLineBreak ·) with
  | true => exact keeps_of_eq_none (by simpa [hline] using hold) (by simpa [hline] using hnew)
  | false =>
    rw [hline] at hold
    refine keeps_of_lt hold ?_
    have hpos := List.length_pos_iff.2 hne
    simp only [List.length_append]
    omega

end Pattern

/-- Behind a quote or a backslash only strings and character literals in code need a look. -/
theorem replaces_of_keeps {z : Char} (hz : z = '"' ∨ z = '\\') {us vs : List Char}
    (hhead : vs.head? = some '\'' → us.head? = some '\'')
    (hescape : Pattern.charEscapeLiteral.Keeps ['\''] (z :: us) (z :: vs))
    (hstring : ∀ c cs, Pattern.unterminatedString.Keeps (c :: cs) (z :: us) (z :: vs)) :
    Replaces (z :: vs) (z :: us) := by
  intro mode rule hmem c cs
  cases havoids : rule.pattern.avoids z with
  | true => exact Pattern.keeps_of_avoids havoids _ _ _
  | false =>
    have hrule : rule ∈ mode.quotedRules := by
      rw [← mode.filter_avoids_quotes]
      refine List.mem_filter.2 ⟨hmem, ?_⟩
      rcases hz with rfl | rfl <;> simp [havoids]
    have hline := Pattern.keeps_lineComment hz c cs us vs
    have hquote : Pattern.doubleQuote.Keeps (c :: cs) (z :: us) (z :: vs) :=
      Pattern.keeps_of_extends (Pattern.extends_one _ (by simp) _) (Pattern.extends_one _ (by simp) _)
    cases mode with
    | root =>
      simp only [Mode.quotedRules, List.mem_cons, List.not_mem_nil, or_false] at hrule
      rcases hrule with rfl | rfl | rfl | rfl | rfl
      · exact hline
      · exact hstring c cs
      · exact hquote
      · exact Pattern.keeps_charLiteral hz c cs hhead
      · exact Pattern.keeps_charEscapeLiteral hz c cs hhead hescape
    | whitespace =>
      obtain rfl := List.mem_singleton.1 hrule
      exact hline
    | inside region =>
      cases region with
      | string =>
        simp only [Mode.quotedRules, List.mem_cons, List.not_mem_nil, or_false] at hrule
        rcases hrule with rfl | rfl | rfl
        · exact Pattern.keeps_escape hz c cs us vs
        · exact Pattern.keeps_anyEscape hz c cs us vs
        · exact hquote
      | blockComment | docComment =>
        obtain rfl := List.mem_singleton.1 hrule
        exact Pattern.keeps_commentText hz c cs us vs

end Tokenizer
