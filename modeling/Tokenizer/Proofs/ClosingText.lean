import Tokenizer.Proofs.CommentUnit
import Tokenizer.Proofs.Seam

/-!
The text that closes a region, put behind a source that leaves the region open. Every step of the
source is taken as before, and the text is then read as the end of the region, unless the source
ends in a character that takes the first character of the text to itself.
-/
namespace Tokenizer

open CharClass

def Region.closer : Region → List Char
  | string => ['"']
  | blockComment | docComment => ['*', '/']

/--
At this text, in these modes, a step takes the text that is to close the region for something
else: the quote for an escaped one, the star for the second half of a comment opener.
-/
inductive Balks : Region → ModeStack → List Char → Prop
  | quote {modes : ModeStack} {body : List Char} : modes.top = .root → StringBody body →
      Balks .string modes ('"' :: (body ++ ['\\']))
  | escape {modes : ModeStack} : modes.top = .inside .string → Balks .string modes ['\\']
  | nested {modes : ModeStack} : modes.top = .inside .docComment → Balks .docComment modes ['/']

/-! ### Patterns in front of a closing text -/

namespace Pattern

theorem Extends.orElse {a b : Pattern} {xs zs : List Char} (ha : a.Extends xs zs)
    (hb : b.Extends xs zs) : (a.orElse b).Extends xs zs := by
  unfold Extends at *
  rw [match?, match?, ha, hb]
  cases a.match? xs <;> rfl

theorem extends_run1 {p : Char → Bool} {xs : List Char} (hne : xs ≠ [])
    (h : ¬∀ x ∈ xs, p x = true) (zs : List Char) : (run1 p).Extends xs zs := by
  obtain ⟨c, cs, rfl⟩ := List.exists_cons_of_ne_nil hne
  cases hc : p c with
  | false => simp [Extends, hc]
  | true =>
    unfold Extends
    rw [List.cons_append, match?_run1_of_pos hc, match?_run1_of_pos hc]
    exact extends_run h zs

theorem extends_notBefore (p : Char → Bool) {xs : List Char} (h : xs ≠ []) (zs : List Char) :
    (notBefore p).Extends xs zs := by
  obtain ⟨c, cs, rfl⟩ := List.exists_cons_of_ne_nil h
  by_cases hc : p c = true <;> simp [Extends, hc, Match.extend]

theorem extends_closer {a : Pattern} (hquote : a.avoids '"' = true) (hstar : a.avoids '*' = true)
    (xs : List Char) (region : Region) : a.Extends xs region.closer := by
  cases region with
  | string => exact extends_of_avoids hquote xs []
  | blockComment => exact extends_of_avoids hstar xs ['/']
  | docComment => exact extends_of_avoids hstar xs ['/']

/-- The first character settles what an escape is, and its digits stop before quotes and stars. -/
theorem extends_escapeBody {xs : List Char} (h : xs ≠ []) {z : Char} (hz : z ∈ ['"', '\\', '*'])
    (zs : List Char) : escapeBody.Extends xs (z :: zs) := by
  obtain ⟨hshort, hmiddle, hlong⟩ :
      (char 'x' ++ one isHexDigit ++ upTo isHexDigit 3).avoids z = true ∧
        (char 'u' ++ exactly isHexDigit 4).avoids z = true ∧
        (char 'U' ++ exactly isHexDigit 8).avoids z = true := by
    simp only [List.mem_cons, List.not_mem_nil, or_false] at hz
    rcases hz with rfl | rfl | rfl <;> decide
  refine .orElse (.orElse (.orElse (extends_one _ h _) ?_) ?_) ?_
  · exact extends_of_avoids hshort xs zs
  · exact extends_of_avoids hmiddle xs zs
  · exact extends_of_avoids hlong xs zs

theorem extends_escape {xs : List Char} (h : xs ≠ ['\\']) (region : Region) :
    escape.Extends xs region.closer := by
  refine (extends_closer (by decide) (by decide) xs region).append ?_
  intro m hm
  obtain ⟨rest, rfl, rfl⟩ := match?_char_eq_some.1 hm
  have hrest : rest ≠ [] := by
    rintro rfl
    exact h rfl
  cases region <;> exact extends_escapeBody hrest (by decide) _

/-- What stops a string within the text stops it also if the text goes on. -/
theorem Extends.of_stringStop {body tail zs : List Char} (hbody : StringBody body)
    (htail : StringStop tail) (hlonger : StringStop (tail ++ zs)) (hne : tail ≠ []) :
    unterminatedString.Extends ('"' :: (body ++ tail)) zs := by
  obtain ⟨z, tail, rfl⟩ := List.exists_cons_of_ne_nil hne
  unfold Extends
  rw [List.cons_append, List.append_assoc, hlonger.match?_unterminatedString hbody,
    htail.match?_unterminatedString hbody, List.cons_append, List.head?_cons, List.head?_cons]
  split <;> rfl

theorem extends_anyEscape {xs : List Char} (h : xs ≠ ['\\']) (region : Region) :
    anyEscape.Extends xs region.closer := by
  refine (extends_closer (by decide) (by decide) xs region).append ?_
  intro m hm
  obtain ⟨rest, rfl, rfl⟩ := match?_char_eq_some.1 hm
  apply extends_one
  rintro rfl
  exact h rfl

end Pattern

/-- It is enough that a rule keeps its match if it is the first that matches. -/
theorem Rule.first?_append_of_wins {rules : List Rule} {xs zs : List Char}
    (h : ∀ rule ∈ rules, (∀ m, rule.match? xs = some m → first? rules xs = some (rule, m)) →
      rule.pattern.Extends xs zs) :
    first? rules (xs ++ zs) = (first? rules xs).map fun p => (p.1, p.2.extend zs) := by
  induction rules with
  | nil => rfl
  | cons rule rules ih =>
    have hrule := match?_append_of_extends
      (h rule List.mem_cons_self fun m hm => first?_cons_of_match? hm rules)
    cases hm : rule.match? xs with
    | some m =>
      rw [hm] at hrule
      rw [first?_cons_of_match? hrule, first?_cons_of_match? hm]
      rfl
    | none =>
      rw [hm] at hrule
      rw [first?_cons_of_eq_none hrule, first?_cons_of_eq_none hm]
      apply ih
      intro r hr hwins
      apply h r (List.mem_cons_of_mem rule hr)
      intro m' hm'
      rw [first?_cons_of_eq_none hm]
      exact hwins m' hm'

theorem step_append_of_first? {modes : ModeStack} {c : Char} {cs zs : List Char}
    (h : Rule.first? modes.top.rules (c :: cs ++ zs) =
      (Rule.first? modes.top.rules (c :: cs)).map fun p => (p.1, p.2.extend zs)) (start : Nat) :
    step start modes c (cs ++ zs) = (step start modes c cs).extend zs := by
  rw [step, step, ← List.cons_append, h]
  cases Rule.first? modes.top.rules (c :: cs) <;> rfl

theorem finalModes_of_step {start : Nat} {modes : ModeStack} {c : Char} {cs : List Char} {s : Step}
    (h : step start modes c cs = s) (hrest : s.rest = []) :
    finalModes modes (c :: cs) = s.after := by
  rw [finalModes_cons start, h, hrest, finalModes_nil]

/-! ### Steps inside a region -/

section
variable {modes : ModeStack} {region : Region} {c : Char} {cs : List Char}
  (hfinal : (finalModes modes (c :: cs)).top = .inside region)
include hfinal

/-- A step that reads all of the text and stays where it is stays in the open region. -/
theorem eq_region_of_rest_eq_nil {r : Region} (htop : modes.top = .inside r) {start : Nat}
    {s : Step} (hstep : step start modes c cs = s) (hrest : s.rest = [])
    (hafter : s.after = modes) : r = region := by
  rw [finalModes_of_step hstep hrest, hafter, htop] at hfinal
  simpa using hfinal

/-- Filler up to the end belongs to the open region, and its closer is no filler there. -/
theorem step_filler_append_closer {r : Region} (htop : modes.top = .inside r)
    (hc : modes.top.isFiller c = true) (start : Nat) :
    step start modes c (cs ++ region.closer) = (step start modes c cs).extend region.closer := by
  have hstep := step_of_isFiller start modes hc cs
  rw [step_of_isFiller start modes hc (cs ++ region.closer), ← List.cons_append]
  by_cases hall : ∀ x ∈ c :: cs, modes.top.isFiller x = true
  · have hrest : (step start modes c cs).rest = [] := by
      rw [hstep]
      exact List.dropWhile_eq_nil_iff.2 hall
    have hafter : (step start modes c cs).after = modes := by
      rw [hstep]
      rfl
    obtain rfl := eq_region_of_rest_eq_nil hfinal htop rfl hrest hafter
    obtain ⟨z, zs, hcloser, hz⟩ :
        ∃ z zs, r.closer = z :: zs ∧ modes.top.isFiller z = false := by
      rw [htop]
      cases r <;> exact ⟨_, _, rfl, rfl⟩
    rw [hstep, hcloser, Pattern.takeWhile_append_of_stop hz, Pattern.dropWhile_append_of_stop hz]
    rfl
  · rw [hstep, takeWhile_append_of_not_all hall, dropWhile_append_of_not_all hall]
    rfl

theorem step_comment_append_closer {nests : Bool}
    (htop : modes.top = .inside (commentRegion nests)) (hbalks : ¬Balks region modes (c :: cs))
    (start : Nat) :
    step start modes c (cs ++ region.closer) = (step start modes c cs).extend region.closer := by
  by_cases hfiller : modes.top.isFiller c = true
  · exact step_filler_append_closer hfinal htop hfiller start
  obtain rfl | rfl : c = '*' ∨ c = '/' := by
    rw [htop] at hfiller
    cases nests <;> simp [commentRegion, Mode.isFiller] at hfiller <;> tauto
  · cases cs with
    | nil =>
      have hhead : region.closer.head? ≠ some '/' := by cases region <;> decide
      rw [List.nil_append, step_comment_star htop start hhead,
        step_comment_star htop start (by simp)]
      rfl
    | cons d cs =>
      by_cases hd : d = '/'
      · subst hd
        rw [List.cons_append, step_comment_close htop, step_comment_close htop]
        rfl
      · rw [step_comment_star htop start (by simpa using hd),
          step_comment_star htop start (by simpa using hd)]
        rfl
  · cases cs with
    | nil =>
      have hstep : step start modes '/' [] = _ := step_comment_slash htop start (by simp)
      rw [hstep, List.nil_append]
      apply step_comment_slash htop start
      rintro ⟨rfl, hhead⟩
      -- the doc comment would be the region that is left open
      obtain rfl := eq_region_of_rest_eq_nil hfinal htop hstep rfl rfl
      exact hbalks (.nested htop)
    | cons d cs =>
      by_cases hnested : nests = true ∧ d = '*'
      · obtain ⟨rfl, rfl⟩ := hnested
        rw [List.cons_append, step_doc_nested htop, step_doc_nested htop]
        rfl
      · rw [step_comment_slash htop start (by simpa using hnested),
          step_comment_slash htop start (by simpa using hnested)]
        rfl

theorem step_string_append_closer (htop : modes.top = .inside .string)
    (hbalks : ¬Balks region modes (c :: cs)) (start : Nat) :
    step start modes c (cs ++ region.closer) = (step start modes c cs).extend region.closer := by
  by_cases hfiller : modes.top.isFiller c = true
  · exact step_filler_append_closer hfinal htop hfiller start
  obtain rfl | rfl : c = '\\' ∨ c = '"' := by
    rw [htop] at hfiller
    simp [Mode.isFiller] at hfiller
    tauto
  · have hne : '\\' :: cs ≠ ['\\'] := by
      intro hdangling
      obtain rfl : cs = [] := by simpa using hdangling
      have hstep : step start modes '\\' [] = _ := step_string_dangling htop start (by simp)
      obtain rfl := eq_region_of_rest_eq_nil hfinal htop hstep rfl rfl
      exact hbalks (.escape htop)
    apply step_append_of_first?
    apply Rule.first?_append_of_wins
    intro rule hmem _
    simp only [htop, Mode.rules, stringRules, List.mem_cons, List.not_mem_nil, or_false] at hmem
    rcases hmem with rfl | rfl | rfl | rfl
    · exact Pattern.extends_run1 (by simp) (by simp) _
    · exact Pattern.extends_escape hne region
    · exact Pattern.extends_anyEscape hne region
    · exact Pattern.extends_one _ (by simp) _
  · rw [step_string_close htop, step_string_close htop]
    rfl

end

/-! ### Steps in code -/

/-- The rules for code that may look at the first character of a closer. -/
theorem filter_avoids_closers :
    rootRules.filter (fun rule => !(rule.pattern.avoids '"' && rule.pattern.avoids '*')) =
      [⟨"doc.open", .docCommentOpen, .emit .docComment, .push .docComment⟩,
        ⟨"comment.open", .blockCommentOpen, .emit .blockComment, .push .blockComment⟩,
        ⟨"comment.line", .lineComment, .emit .lineComment, .stay⟩,
        ⟨"angle", .loneAngle, .classify .bracket, .stay⟩,
        ⟨"symbols", .symbolRun, .classify .symbolRun, .stay⟩,
        ⟨"string.unterminated", .unterminatedString, .emit .stringInvalid, .stay⟩,
        ⟨"string.open", .doubleQuote, .emit .string, .push .string⟩,
        ⟨"char", .charLiteral, .emit .char, .stay⟩,
        ⟨"char.escape", .charEscapeLiteral, .enclosed .char .stringEscape, .stay⟩] := rfl

/-- A dangling backslash at the end of the source keeps a string open. -/
theorem steps_string_dangling_end {modes : ModeStack} (htop : modes.top = .root) (start : Nat)
    {body : List Char} (hbody : StringBody body) :
    ∃ inner, steps start modes ('"' :: (body ++ ['\\'])) =
        step start modes '"' (body ++ ['\\']) ::
          (inner ++ [⟨start + 1 + Text.width body, modes.enter .string, none, ['\\'], []⟩]) ∧
      (step start modes '"' (body ++ ['\\'])).Opens .string ∧
      ∀ u ∈ inner, u.ReadsString (modes.enter .string) := by
  have hnone : Pattern.unterminatedString.match? ('"' :: (body ++ ['\\'])) = none := by
    rw [(StringStop.dangling (by simp)).match?_unterminatedString hbody]
    rfl
  have hinside : (modes.enter .string).top = .inside .string := rfl
  obtain ⟨inner, hsteps, hinner⟩ :=
    steps_string_body hinside (start + 1) hbody (Or.inr rfl : _ ∨ '\\' = '\\') []
  have hbad : step (start + 1 + Text.width body) (modes.enter .string) '\\' [] = _ :=
    step_string_dangling hinside _ (by simp)
  rw [steps_cons, hbad, steps_nil] at hsteps
  refine ⟨inner, ?_, ?_, hinner⟩
  · rw [steps_cons, step_root_open htop start hnone]
    exact congrArg _ hsteps
  · rw [step_root_open htop start hnone]
    exact ⟨htop, rfl⟩

theorem top_finalModes_dangling {modes : ModeStack} (htop : modes.top = .root) {body : List Char}
    (hbody : StringBody body) :
    (finalModes modes ('"' :: (body ++ ['\\']))).top = .inside .string := by
  obtain ⟨inner, hsteps, -, -⟩ := steps_string_dangling_end htop 0 hbody
  rw [finalModes, scan, hsteps, endModes_cons, endModes_append]
  rfl

section
variable {modes : ModeStack} (htop : modes.top = .root) {region : Region} {c : Char}
  {cs : List Char} (hfinal : (finalModes modes (c :: cs)).top = .inside region)
include htop hfinal

/-- A step that reads all of the text has opened the region. -/
theorem after_ne_of_rest_eq_nil {start : Nat} {s : Step} (hstep : step start modes c cs = s)
    (hrest : s.rest = []) : s.after ≠ modes := by
  intro hafter
  rw [finalModes_of_step hstep hrest, hafter, htop] at hfinal
  simp at hfinal

theorem extends_lineComment_closer : Pattern.lineComment.Extends (c :: cs) region.closer := by
  refine (Pattern.extends_closer (by decide) (by decide) _ _).append ?_
  intro m hm
  obtain ⟨rest, hcs, rfl⟩ := Pattern.match?_literal_eq_some.1 hm
  obtain ⟨rfl, rfl⟩ : c = '/' ∧ cs = '/' :: rest := by simpa using hcs
  apply Pattern.extends_run
  intro hall
  have hstep := step_root_lineComment htop 0 rest
  rw [List.takeWhile_eq_self_iff.2 hall, List.dropWhile_eq_nil_iff.2 hall] at hstep
  exact after_ne_of_rest_eq_nil htop hfinal hstep rfl rfl

/-- A run of symbols up to the end is read only if no opener of a comment comes first. -/
theorem extends_symbolRun_closer
    (hwins : ∀ m, Rule.match? ⟨"symbols", .symbolRun, .classify .symbolRun, .stay⟩ (c :: cs) =
      some m → Rule.first? modes.top.rules (c :: cs) =
        some (⟨"symbols", .symbolRun, .classify .symbolRun, .stay⟩, m)) :
    Pattern.symbolRun.Extends (c :: cs) region.closer := by
  apply Pattern.extends_run1 (by simp)
  intro hall
  have hmatch : Rule.match? ⟨"symbols", .symbolRun, .classify .symbolRun, .stay⟩ (c :: cs) =
      some ⟨c :: cs, []⟩ := by
    rw [Rule.match?_eq_some_iff]
    simp [Pattern.symbolRun, List.takeWhile_eq_self_iff.2 hall, List.dropWhile_eq_nil_iff.2 hall,
      hall c List.mem_cons_self]
  have hstep := step_of_first? (hwins _ hmatch) 0
  exact after_ne_of_rest_eq_nil htop hfinal hstep rfl rfl

/-- A character that opens nothing by itself is not the last of the text. -/
theorem ne_nil_of_after_single (h : (step 0 modes c []).after = modes) : cs ≠ [] := by
  rintro rfl
  have hlength := length_step_rest_lt 0 modes c []
  have hrest : (step 0 modes c []).rest = [] :=
    List.eq_nil_of_length_eq_zero (by simpa using hlength)
  exact after_ne_of_rest_eq_nil htop hfinal rfl hrest h

theorem extends_loneAngle_closer : Pattern.loneAngle.Extends (c :: cs) region.closer := by
  refine (Pattern.extends_one _ (by simp) _).append ?_
  intro m hm
  obtain ⟨d, rest, hcs, hd, rfl⟩ := Pattern.match?_one_eq_some.1 hm
  obtain ⟨rfl, rfl⟩ : c = d ∧ cs = rest := by simpa using hcs
  apply Pattern.extends_notBefore
  apply ne_nil_of_after_single htop hfinal
  obtain rfl := ModeStack.eq_of_top_eq_root htop
  obtain rfl | rfl : c = '<' ∨ c = '>' := by simpa using hd
  · rfl
  · rfl

theorem extends_charLiteral_closer : Pattern.charLiteral.Extends (c :: cs) region.closer := by
  refine .append (.append (Pattern.extends_closer (by decide) (by decide) _ _) ?_) ?_
  · intro m hm
    obtain ⟨rest, hcs, rfl⟩ := Pattern.match?_char_eq_some.1 hm
    obtain ⟨rfl, rfl⟩ : c = '\'' ∧ cs = rest := by simpa using hcs
    apply Pattern.extends_one
    apply ne_nil_of_after_single htop hfinal
    rw [step_root_quote htop]
    rfl
  · intro m _
    exact Pattern.extends_closer (by decide) (by decide) _ _

theorem extends_charEscapeLiteral_closer :
    Pattern.charEscapeLiteral.Extends (c :: cs) region.closer := by
  refine .append (.append (Pattern.extends_closer (by decide) (by decide) _ _) ?_) ?_
  · intro m hm
    obtain ⟨rest, hcs, rfl⟩ := Pattern.match?_char_eq_some.1 hm
    obtain ⟨rfl, rfl⟩ : c = '\'' ∧ cs = rest := by simpa using hcs
    apply Pattern.extends_escape
    rintro rfl
    obtain rfl := ModeStack.eq_of_top_eq_root htop
    have hroot : (finalModes {} ['\'', '\\']).top = .root := by decide +kernel
    simp [hroot] at hfinal
  · intro m _
    exact Pattern.extends_closer (by decide) (by decide) _ _

theorem extends_blockCommentOpen_closer :
    Pattern.blockCommentOpen.Extends (c :: cs) region.closer := by
  refine (Pattern.extends_closer (by decide) (by decide) _ _).append ?_
  intro m hm
  obtain ⟨rest, hcs, rfl⟩ := Pattern.match?_char_eq_some.1 hm
  obtain ⟨rfl, rfl⟩ : c = '/' ∧ cs = rest := by simpa using hcs
  refine (Pattern.extends_one _ ?_ _).append fun _ _ => rfl
  apply ne_nil_of_after_single htop hfinal
  obtain rfl := ModeStack.eq_of_top_eq_root htop
  rfl

theorem extends_docCommentOpen_closer :
    Pattern.docCommentOpen.Extends (c :: cs) region.closer := by
  by_cases hopen : c :: cs = ['/', '*']
  · -- the star of the closer comes third, but then a slash follows it
    rw [hopen]
    cases region <;> exact .of_eq_none rfl rfl
  refine .append ?_ fun _ _ => Pattern.extends_closer (by decide) (by decide) _ _
  refine (Pattern.extends_closer (by decide) (by decide) _ _).append ?_
  intro m hm
  obtain ⟨rest, hcs, rfl⟩ := Pattern.match?_char_eq_some.1 hm
  obtain ⟨rfl, rfl⟩ : c = '/' ∧ cs = rest := by simpa using hcs
  refine (Pattern.extends_one _ ?_ _).append ?_
  · apply ne_nil_of_after_single htop hfinal
    obtain rfl := ModeStack.eq_of_top_eq_root htop
    rfl
  · intro m hm
    obtain ⟨rest, rfl, rfl⟩ := Pattern.match?_char_eq_some.1 hm
    refine (Pattern.extends_one _ ?_ _).append fun _ _ => rfl
    rintro rfl
    exact hopen rfl

/-- The line of an opening quote does not reach the end, unless a backslash dangles there. -/
theorem extends_unterminatedString_closer (hbalks : ¬Balks region modes (c :: cs)) :
    Pattern.unterminatedString.Extends (c :: cs) region.closer := by
  by_cases hc : c = '"'
  swap
  · have hnone : ∀ rest, Pattern.unterminatedString.match? (c :: rest) = none := by
      intro rest
      simp [Pattern.unterminatedString, Pattern.doubleQuote, hc]
    exact .of_eq_none (hnone _) (hnone _)
  subst hc
  obtain ⟨body, tail, rfl, hbody, htail⟩ := exists_stringBody cs
  have hmatch := htail.match?_unterminatedString hbody
  suffices hstop : StringStop (tail ++ region.closer) ∧ tail ≠ [] from
    .of_stringStop hbody htail hstop.1 hstop.2
  cases htail with
  | quote tail => exact ⟨.quote _, by simp⟩
  | @dangling tail hbreak =>
    refine ⟨.dangling ?_, by simp⟩
    cases tail with
    | cons d tail => exact hbreak
    | nil =>
      have hstring := top_finalModes_dangling htop hbody
      rw [hstring] at hfinal
      obtain rfl : .string = region := by simpa using hfinal
      exact absurd (.quote htop hbody) hbalks
  | line hbreak =>
    cases tail with
    | cons d tail => exact ⟨.line hbreak, by simp⟩
    | nil =>
      -- an unterminated string up to the end opens nothing
      have hstep := step_root_unterminated htop 0 hmatch (by simp)
      exact absurd rfl (after_ne_of_rest_eq_nil htop hfinal hstep rfl)

theorem step_root_append_closer (hbalks : ¬Balks region modes (c :: cs)) (start : Nat) :
    step start modes c (cs ++ region.closer) = (step start modes c cs).extend region.closer := by
  apply step_append_of_first?
  apply Rule.first?_append_of_wins
  intro rule hmem hwins
  by_cases havoids : rule.pattern.avoids '"' && rule.pattern.avoids '*'
  · obtain ⟨hquote, hstar⟩ := Bool.and_eq_true_iff.1 havoids
    exact Pattern.extends_closer hquote hstar _ _
  have hrule : rule ∈ rootRules.filter
      fun rule => !(rule.pattern.avoids '"' && rule.pattern.avoids '*') := by
    rw [htop] at hmem
    exact List.mem_filter.2 ⟨hmem, by rw [Bool.eq_false_iff.2 havoids]; rfl⟩
  rw [filter_avoids_closers] at hrule
  simp only [List.mem_cons, List.not_mem_nil, or_false] at hrule
  rcases hrule with rfl | rfl | rfl | rfl | rfl | rfl | rfl | rfl | rfl
  · exact extends_docCommentOpen_closer htop hfinal
  · exact extends_blockCommentOpen_closer htop hfinal
  · exact extends_lineComment_closer htop hfinal
  · exact extends_loneAngle_closer htop hfinal
  · exact extends_symbolRun_closer htop hfinal hwins
  · exact extends_unterminatedString_closer htop hfinal hbalks
  · exact Pattern.extends_one _ (by simp) _
  · exact extends_charLiteral_closer htop hfinal
  · exact extends_charEscapeLiteral_closer htop hfinal

end

/-! ### The whole source -/

theorem step_append_closer {modes : ModeStack} {region : Region} {c : Char} {cs : List Char}
    (hfinal : (finalModes modes (c :: cs)).top = .inside region)
    (hbalks : ¬Balks region modes (c :: cs)) (start : Nat) :
    step start modes c (cs ++ region.closer) = (step start modes c cs).extend region.closer := by
  rcases modes.top_cases with htop | ⟨r, htop⟩
  · exact step_root_append_closer htop hfinal hbalks start
  cases r with
  | string => exact step_string_append_closer hfinal htop hbalks start
  | blockComment =>
    have htop : modes.top = .inside (commentRegion false) := htop
    exact step_comment_append_closer hfinal htop hbalks start
  | docComment =>
    have htop : modes.top = .inside (commentRegion true) := htop
    exact step_comment_append_closer hfinal htop hbalks start

/--
The steps of a source that leaves a region open, when the text follows that closes the region.
Either all of them are as before, or they are so up to a place where a step balks.
-/
theorem steps_append_closer (start : Nat) (modes : ModeStack) (cs : List Char) {region : Region}
    (hfinal : (finalModes modes cs).top = .inside region) :
    steps start modes (cs ++ region.closer) =
        (steps start modes cs).map (·.extend region.closer) ++
          steps (start + Text.width cs) (finalModes modes cs) region.closer ∨
      ∃ before left, Balks region (endModes modes before) left ∧
        cs = before.flatMap Step.text ++ left ∧
        steps start modes cs = before ++
          steps (start + Text.width (before.flatMap Step.text)) (endModes modes before) left ∧
        steps start modes (cs ++ region.closer) = before.map (·.extend region.closer) ++
          steps (start + Text.width (before.flatMap Step.text)) (endModes modes before)
            (left ++ region.closer) := by
  induction start, modes, cs using steps.induct with
  | case1 start modes => exact .inl (by simp)
  | case2 start modes c cs s ih =>
    by_cases hbalks : Balks region modes (c :: cs)
    · exact .inr ⟨[], c :: cs, hbalks, rfl, rfl, rfl⟩
    have hstep := step_append_closer hfinal hbalks start
    have hrest : finalModes modes (c :: cs) = finalModes s.after s.rest :=
      finalModes_cons start modes c cs
    rw [hrest] at hfinal
    have hsplit : s.text ++ s.rest = c :: cs := step_split start modes c cs
    have hstop : s.stop = start + Text.width s.text := by rw [Step.stop, step_start]
    have hcons : steps start modes (c :: cs) = s :: steps s.stop s.after s.rest :=
      steps_cons start modes c cs
    have hlonger : steps start modes (c :: cs ++ region.closer) =
        s.extend region.closer :: steps s.stop s.after (s.rest ++ region.closer) := by
      rw [List.cons_append, steps_cons, hstep]
      rfl
    rcases ih hfinal with hall | ⟨before, left, hleft, hcs, hsteps, hafter⟩
    · left
      rw [hlonger, hall, hcons, hrest, hstop, ← hsplit, Text.width_append, Nat.add_assoc]
      rfl
    · right
      refine ⟨s :: before, left, hleft, ?_, ?_, ?_⟩
      · rw [← hsplit, hcs, List.flatMap_cons, List.append_assoc]
      · rw [hcons, hsteps, hstop, List.flatMap_cons, Text.width_append, Nat.add_assoc]
        rfl
      · rw [hlonger, hafter, hstop, List.flatMap_cons, Text.width_append, Nat.add_assoc]
        rfl

end Tokenizer
