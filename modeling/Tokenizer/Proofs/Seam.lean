import Tokenizer.Proofs.Fault
import Tokenizer.Proofs.Filler
import Tokenizer.Proofs.LineRestart
import Tokenizer.Proofs.StringOpening

/-!
Seams. A step is blind to white space after the text if it sees a line break first, or if the text
is tidy: it has no faults and ends in no line comment. Every rule that could read on past the end
of the text, or change its mind there, leaves a fault or a line comment behind.
-/
namespace Tokenizer

open CharClass

namespace Pattern

/-- The pattern matches a text as it does when `zs` follows it. -/
def Extends (a : Pattern) (xs zs : List Char) : Prop :=
  a.match? (xs ++ zs) = (a.match? xs).map (·.extend zs)

theorem extends_of_avoids {a : Pattern} {c : Char} (h : a.avoids c = true) (xs ys : List Char) :
    a.Extends xs (c :: ys) := a.match?_append_of_avoids h xs ys

theorem extends_of_space {a : Pattern} (h : a.avoids ' ' = true) (htab : a.avoids '\t' = true)
    {b : Char} (hb : isHorizontalSpace b = true) (xs ys : List Char) : a.Extends xs (b :: ys) := by
  obtain rfl | rfl : b = ' ' ∨ b = '\t' := by simpa [isHorizontalSpace] using hb
  · exact extends_of_avoids h xs ys
  · exact extends_of_avoids htab xs ys

theorem extends_one (p : Char → Bool) {stride : Stride} {xs : List Char} (h : xs ≠ [])
    (zs : List Char) : (one p stride).Extends xs zs := by
  obtain ⟨c, cs, rfl⟩ := List.exists_cons_of_ne_nil h
  by_cases hc : p c = true <;> simp [Extends, hc, Match.extend]

theorem extends_run {p : Char → Bool} {xs : List Char} (h : ¬∀ x ∈ xs, p x = true)
    (zs : List Char) : (run p).Extends xs zs := by
  simp [Extends, match?, Match.extend, takeWhile_append_of_not_all h, dropWhile_append_of_not_all h]

theorem Extends.append {a b : Pattern} {xs zs : List Char} (ha : a.Extends xs zs)
    (hb : ∀ m, a.match? xs = some m → b.Extends m.rest zs) : (a ++ b).Extends xs zs := by
  unfold Extends
  rw [match?_append, match?_append, ha]
  cases hm : a.match? xs with
  | none => rfl
  | some m =>
    have hrest := hb m hm
    unfold Extends at hrest
    simp only [Option.map_some, Option.bind_some, Match.extend, hrest]
    cases b.match? m.rest <;> rfl

theorem Extends.of_eq_none {a : Pattern} {xs zs : List Char} (h : a.match? xs = none)
    (hzs : a.match? (xs ++ zs) = none) : a.Extends xs zs := by
  rw [Extends, h, hzs]
  rfl

end Pattern

theorem Rule.match?_append_of_extends {rule : Rule} {xs zs : List Char}
    (h : rule.pattern.Extends xs zs) :
    rule.match? (xs ++ zs) = (rule.match? xs).map (·.extend zs) := by
  rw [match?, match?, h]
  cases rule.pattern.match? xs with
  | none => rfl
  | some m =>
    simp only [Option.map_some, Option.filter_some, Match.extend]
    split <;> rfl

/-! ### The rules that read or look past spaces -/

/-- The rules of a mode with a class that holds spaces or tabs. -/
def Mode.spaceRules (mode : Mode) : List Rule :=
  mode.fillerRule :: match mode with
  | root =>
    [⟨"comment.line", .lineComment, .emit .lineComment, .stay⟩,
      ⟨"annotation", .annotationName, .emit .annotationName, .stay⟩,
      ⟨"string.unterminated", .unterminatedString, .emit .stringInvalid, .stay⟩,
      ⟨"char", .charLiteral, .emit .char, .stay⟩]
  | whitespace => [⟨"comment.line", .lineComment, .emit .lineComment, .stay⟩]
  | inside .string =>
    [⟨"string.escape.invalid", .anyEscape, .emit .stringEscapeInvalid, .stay⟩]
  | inside .blockComment | inside .docComment => []

theorem Mode.filter_avoids (mode : Mode) {b : Char} (hb : isHorizontalSpace b = true) :
    mode.rules.filter (!·.pattern.avoids b) = mode.spaceRules := by
  obtain rfl | rfl : b = ' ' ∨ b = '\t' := by simpa [isHorizontalSpace] using hb
  all_goals
    cases mode with
    | inside region => cases region <;> rfl
    | _ => rfl

/-- Only these rules have to be looked at for a space after the text. -/
theorem Mode.first?_append_of_space {mode : Mode} {b : Char} (hb : isHorizontalSpace b = true)
    {xs ys : List Char} (h : ∀ rule ∈ mode.spaceRules,
      rule.match? (xs ++ b :: ys) = (rule.match? xs).map (·.extend (b :: ys))) :
    Rule.first? mode.rules (xs ++ b :: ys) =
      (Rule.first? mode.rules xs).map fun p => (p.1, p.2.extend (b :: ys)) := by
  apply Rule.first?_append
  intro rule hmem
  by_cases havoids : rule.pattern.avoids b = true
  · exact rule.match?_append_of_avoids havoids xs ys
  · apply h
    rw [← mode.filter_avoids hb]
    exact List.mem_filter.2 ⟨hmem, by simpa using havoids⟩

/-! ### The end of a string seen from its quote -/

theorem Pattern.match?_stringUnit_quote (cs : List Char) : stringUnit.match? ('"' :: cs) = none := by
  simp [stringUnit, match?, stringLineText, anyEscape, backslash]

/-- What stops the text of a string: a quote, a dangling backslash, or the end of the line. -/
inductive StringStop : List Char → Prop
  | quote (cs : List Char) : StringStop ('"' :: cs)
  | dangling {cs : List Char} : (∀ c ∈ cs.head?, isLineBreak c = true) → StringStop ('\\' :: cs)
  | line {cs : List Char} : (∀ c ∈ cs.head?, isLineBreak c = true) → StringStop cs

namespace StringStop

variable {tail : List Char} (h : StringStop tail)
include h

theorem head_not_plain : ∀ z ∈ tail.head?, isStringPlain z = false := by
  cases h with
  | quote cs => simp [isStringPlain]
  | dangling _ => simp [isStringPlain]
  | line hbreak =>
    intro z hz
    simp [isStringPlain, hbreak z hz]

theorem match?_stringUnit : Pattern.stringUnit.match? tail = none := by
  cases h with
  | quote cs => exact Pattern.match?_stringUnit_quote cs
  | dangling hbreak => exact Pattern.match?_stringUnit_dangling hbreak
  | line hbreak => exact Pattern.match?_stringUnit_of_isLineBreak hbreak

theorem match?_unterminatedString {body : List Char} (hbody : StringBody body) :
    Pattern.unterminatedString.match? ('"' :: (body ++ tail)) =
      if tail.head?.any (!isLineBreak ·) then none else some ⟨'"' :: body, tail⟩ :=
  Tokenizer.match?_unterminatedString hbody h.head_not_plain h.match?_stringUnit

end StringStop

/-- Every text is text of a string up to what stops it. -/
theorem exists_stringBody (cs : List Char) :
    ∃ body tail, cs = body ++ tail ∧ StringBody body ∧ StringStop tail := by
  induction hn : cs.length using Nat.strong_induction_on generalizing cs with
  | _ n ih =>
    cases cs with
    | nil => exact ⟨[], [], rfl, .nil, .line (by simp)⟩
    | cons c cs =>
      by_cases hplain : isStringPlain c = true
      · obtain ⟨body, tail, rfl, hbody, htail⟩ := ih cs.length (by simp at hn; omega) cs rfl
        exact ⟨c :: body, tail, rfl, hbody.plain hplain, htail⟩
      by_cases hbreak : isLineBreak c = true
      · exact ⟨[], c :: cs, rfl, .nil, .line (by simpa using hbreak)⟩
      obtain rfl | rfl : c = '\\' ∨ c = '"' := by
        simp [isStringPlain, hbreak] at hplain
        tauto
      · cases cs with
        | nil => exact ⟨[], ['\\'], rfl, .nil, .dangling (by simp)⟩
        | cons d ds =>
          cases hd : isLineBreak d with
          | true => exact ⟨[], '\\' :: d :: ds, rfl, .nil, .dangling (by simpa using hd)⟩
          | false =>
            obtain ⟨body, tail, rfl, hbody, htail⟩ := ih ds.length (by simp at hn; omega) ds rfl
            exact ⟨'\\' :: d :: body, tail, rfl, hbody.escaped hd, htail⟩
      · exact ⟨[], '"' :: cs, rfl, .nil, .quote cs⟩

/-- A quote that opens a string does so whatever follows, if no backslash dangles at the end. -/
theorem match?_unterminatedString_append {cs : List Char}
    (h : Pattern.unterminatedString.match? ('"' :: cs) = none) (hlast : cs.getLast? ≠ some '\\')
    (zs : List Char) : Pattern.unterminatedString.match? ('"' :: (cs ++ zs)) = none := by
  obtain ⟨body, tail, rfl, hbody, htail⟩ := exists_stringBody cs
  have hwhole := htail.match?_unterminatedString hbody
  rw [h] at hwhole
  cases htail with
  | quote tail =>
    rw [List.append_assoc, List.cons_append, (StringStop.quote _).match?_unterminatedString hbody]
    rfl
  | @dangling tail hbreak =>
    have hstop : StringStop ('\\' :: (tail ++ zs)) := by
      cases tail with
      | nil => simp at hlast
      | cons d tail => exact .dangling hbreak
    rw [List.append_assoc, List.cons_append, hstop.match?_unterminatedString hbody]
    rfl
  | line hbreak =>
    -- such a string is unterminated already
    have hnone : tail.head?.any (!isLineBreak ·) = false := by
      cases hz : tail.head? with
      | none => rfl
      | some z => simp [hbreak z hz]
    simp [hnone] at hwhole

/-! ### Tidy texts -/

/-- No faults, no line comment at the end and no backslash there either. -/
structure Tidy (start : Nat) (modes : ModeStack) (cs : List Char) : Prop where
  faultless : ∀ t ∈ (steps start modes cs).flatMap Step.tokens, t.category.isFault = false
  no_comment : ∀ t ∈ ((steps start modes cs).flatMap Step.tokens).getLast?,
    t.category ≠ .lineComment
  no_backslash : cs.getLast? ≠ some '\\'

theorem getLast?_of_append {α : Type} {xs ys : List α} {z : α} (h : ys.getLast? = some z) :
    (xs ++ ys).getLast? = some z := by
  rw [List.getLast?_append, h]
  rfl

namespace Tidy

variable {start : Nat} {modes : ModeStack} {c : Char} {cs : List Char}
  (h : Tidy start modes (c :: cs))
include h

theorem rest : Tidy (step start modes c cs).stop (step start modes c cs).after
    (step start modes c cs).rest where
  faultless := by
    intro t ht
    apply h.faultless
    rw [steps_cons, List.flatMap_cons]
    exact List.mem_append_right _ ht
  no_comment := by
    intro t ht
    apply h.no_comment
    rw [steps_cons, List.flatMap_cons]
    exact getLast?_of_append ht
  no_backslash := by
    intro hlast
    apply h.no_backslash
    rw [← step_split start modes c cs]
    exact getLast?_of_append hlast

theorem step_faultless : ∀ t ∈ (step start modes c cs).tokens, t.category.isFault = false := by
  intro t ht
  apply h.faultless
  rw [steps_cons, List.flatMap_cons]
  exact List.mem_append_left _ ht

end Tidy

section
variable {modes : ModeStack} (htop : modes.top = .root)
include htop

/-- Two slashes start a line comment. -/
theorem step_root_lineComment (start : Nat) (cs : List Char) :
    step start modes '/' ('/' :: cs) =
      ⟨start, modes, some ⟨"comment.line", .lineComment, .emit .lineComment, .stay⟩,
        '/' :: '/' :: cs.takeWhile (!isLineBreak ·), cs.dropWhile (!isLineBreak ·)⟩ := by
  have hrules : Rule.first? modes.top.rules ('/' :: '/' :: cs) =
      Rule.first? [⟨"doc.open", .docCommentOpen, .emit .docComment, .push .docComment⟩,
        ⟨"comment.open", .blockCommentOpen, .emit .blockComment, .push .blockComment⟩,
        ⟨"comment.line", .lineComment, .emit .lineComment, .stay⟩,
        ⟨"symbols", .symbolRun, .classify .symbolRun, .stay⟩] ('/' :: '/' :: cs) := by
    rw [htop, ← Rule.first?_filter_canStart]
    rfl
  have hdoc : Pattern.docCommentOpen.match? ('/' :: '/' :: cs) = none := by
    simp [Pattern.docCommentOpen, Pattern.literal]
  have hopen : Pattern.blockCommentOpen.match? ('/' :: '/' :: cs) = none := by
    simp [Pattern.blockCommentOpen, Pattern.literal]
  have hline : Pattern.lineComment.match? ('/' :: '/' :: cs) =
      some ⟨'/' :: '/' :: cs.takeWhile (!isLineBreak ·), cs.dropWhile (!isLineBreak ·)⟩ := by
    simp [Pattern.lineComment, Pattern.literal, Pattern.match?, Match.append]
  rw [step, hrules, Rule.first?_cons_of_eq_none (by simp [Rule.match?, hdoc]),
    Rule.first?_cons_of_eq_none (by simp [Rule.match?, hopen]),
    Rule.first?_cons_of_match? (Rule.match?_eq_some_iff.2 ⟨hline, by simp⟩)]

/-- An `@` with nothing but spaces after it is invalid. -/
theorem step_root_at (start : Nat) {cs : List Char}
    (h : ∀ x ∈ cs, isHorizontalSpace x = true) :
    step start modes '@' cs = ⟨start, modes, none, ['@'], cs⟩ := by
  have hrules : Rule.first? modes.top.rules ('@' :: cs) =
      Rule.first? [⟨"annotation", .annotationName, .emit .annotationName, .stay⟩] ('@' :: cs) := by
    rw [htop, ← Rule.first?_filter_canStart]
    rfl
  have hname : Pattern.annotationName.match? ('@' :: cs) = none := by
    have hdrop : cs.dropWhile isHorizontalSpace = [] := List.dropWhile_eq_nil_iff.2 h
    simp [Pattern.annotationName, Pattern.identifier, Pattern.match?, Match.append, hdrop]
  rw [step, hrules, Rule.first?_cons_of_eq_none (by simp [Rule.match?, hname])]
  rfl

/-- A single quote at the end is invalid. -/
theorem step_root_quote (start : Nat) :
    step start modes '\'' [] =
      ⟨start, modes, some ⟨"char.invalid", .singleQuote, .emit .charInvalid, .stay⟩, ['\''],
        []⟩ := by
  have hfirst : Rule.first? modes.top.rules ['\''] =
      some (⟨"char.invalid", .singleQuote, .emit .charInvalid, .stay⟩, ⟨['\''], []⟩) := by
    rw [htop, ← Rule.first?_filter_canStart]
    rfl
  exact step_of_first? hfirst start

end

namespace Tidy

variable {start : Nat} {modes : ModeStack} {c : Char} {cs : List Char}
  (h : Tidy start modes (c :: cs)) {b : Char} (hb : isHorizontalSpace b = true) (ys : List Char)
include h hb

theorem extends_lineComment (htop : modes.top = .root) :
    Pattern.lineComment.Extends (c :: cs) (b :: ys) := by
  refine (Pattern.extends_of_space (by decide) (by decide) hb _ _).append ?_
  intro m hm
  obtain ⟨rest, hcs, rfl⟩ := Pattern.match?_literal_eq_some.1 hm
  obtain ⟨rfl, rfl⟩ : c = '/' ∧ cs = '/' :: rest := by simpa using hcs
  apply Pattern.extends_run
  -- a line comment up to the end would be the last token
  intro hall
  have hstep := step_root_lineComment htop start rest
  rw [List.takeWhile_eq_self_iff.2 hall, List.dropWhile_eq_nil_iff.2 hall] at hstep
  have htokens := Step.tokens_of_emit (s := step start modes '/' ('/' :: rest)) (by rw [hstep]) rfl
  have hsteps : steps start modes ('/' :: '/' :: rest) = [step start modes '/' ('/' :: rest)] := by
    rw [steps_cons, hstep]
    simp
  have hlast := h.no_comment
  rw [hsteps, List.flatMap_singleton, htokens] at hlast
  exact hlast _ rfl rfl

theorem extends_annotationName (htop : modes.top = .root) :
    Pattern.annotationName.Extends (c :: cs) (b :: ys) := by
  refine .append (.append (Pattern.extends_of_space (by decide) (by decide) hb _ _) ?_) ?_
  · intro m hm
    obtain ⟨rest, hcs, rfl⟩ := Pattern.match?_char_eq_some.1 hm
    obtain ⟨rfl, rfl⟩ : c = '@' ∧ cs = rest := by simpa using hcs
    apply Pattern.extends_run
    intro hall
    have hfault := h.step_faultless
    rw [step_root_at htop start hall] at hfault
    exact Bool.noConfusion (hfault _ (List.mem_singleton_self _))
  · intro m _
    exact Pattern.extends_of_space (by decide) (by decide) hb _ _

omit hb in
theorem extends_unterminatedString (htop : modes.top = .root) :
    Pattern.unterminatedString.Extends (c :: cs) ys := by
  by_cases hc : c = '"'
  · subst hc
    have hnone : Pattern.unterminatedString.match? ('"' :: cs) = none := by
      rw [Option.eq_none_iff_forall_ne_some]
      intro m hm
      have hne : m.text ≠ [] := by
        obtain ⟨body, tail, rfl, hbody, htail⟩ := exists_stringBody cs
        rw [htail.match?_unterminatedString hbody] at hm
        obtain ⟨-, rfl⟩ : _ ∧ ⟨'"' :: body, tail⟩ = m := by simpa using hm
        simp
      have hfault := h.step_faultless
      rw [Step.tokens_of_emit (s := step start modes '"' cs)
        (by rw [step_root_unterminated htop start hm hne]) rfl] at hfault
      exact Bool.noConfusion (hfault _ (List.mem_singleton_self _))
    have hlast : cs.getLast? ≠ some '\\' := by
      intro hlast
      exact h.no_backslash (@getLast?_of_append _ ['"'] _ _ hlast)
    exact .of_eq_none hnone (match?_unterminatedString_append hnone hlast _)
  · have hnone : ∀ rest, Pattern.unterminatedString.match? (c :: rest) = none := by
      intro rest
      simp [Pattern.unterminatedString, Pattern.doubleQuote, hc]
    exact .of_eq_none (hnone _) (hnone _)

theorem extends_charLiteral (htop : modes.top = .root) :
    Pattern.charLiteral.Extends (c :: cs) (b :: ys) := by
  refine .append (.append (Pattern.extends_of_space (by decide) (by decide) hb _ _) ?_) ?_
  · intro m hm
    obtain ⟨rest, hcs, rfl⟩ := Pattern.match?_char_eq_some.1 hm
    obtain ⟨rfl, rfl⟩ : c = '\'' ∧ cs = rest := by simpa using hcs
    apply Pattern.extends_one
    rintro rfl
    have hfault := h.step_faultless
    rw [step_root_quote htop] at hfault
    exact Bool.noConfusion (hfault _ (List.mem_singleton_self _))
  · intro m _
    exact Pattern.extends_of_space (by decide) (by decide) hb _ _

theorem extends_anyEscape : Pattern.anyEscape.Extends (c :: cs) (b :: ys) := by
  refine .append (Pattern.extends_of_space (by decide) (by decide) hb _ _) ?_
  intro m hm
  obtain ⟨rest, hcs, rfl⟩ := Pattern.match?_char_eq_some.1 hm
  obtain ⟨rfl, rfl⟩ : c = '\\' ∧ cs = rest := by simpa using hcs
  apply Pattern.extends_one
  rintro rfl
  exact h.no_backslash rfl

/-- A step of a tidy text is blind to a space after the text, unless it reads the filler there. -/
theorem step_append (hfiller : ¬∀ x ∈ c :: cs, modes.top.isFiller x = true) :
    step start modes c (cs ++ b :: ys) = (step start modes c cs).extend (b :: ys) := by
  have hfirst : Rule.first? modes.top.rules (c :: cs ++ b :: ys) =
      (Rule.first? modes.top.rules (c :: cs)).map fun p => (p.1, p.2.extend (b :: ys)) := by
    apply Mode.first?_append_of_space hb
    intro rule hmem
    rcases List.mem_cons.1 hmem with rfl | hmem
    · exact modes.top.match?_fillerRule_append hfiller _
    · apply Rule.match?_append_of_extends
      rcases modes.top_cases with htop | ⟨region, htop⟩
      · simp only [htop, List.mem_cons, List.not_mem_nil, or_false] at hmem
        rcases hmem with rfl | rfl | rfl | rfl
        · exact h.extends_lineComment hb ys htop
        · exact h.extends_annotationName hb ys htop
        · exact h.extends_unterminatedString _ htop
        · exact h.extends_charLiteral hb ys htop
      · cases region <;> simp only [htop, List.mem_cons, List.not_mem_nil, or_false] at hmem
        subst hmem
        exact h.extends_anyEscape hb ys
  rw [step, step, ← List.cons_append, hfirst]
  cases Rule.first? modes.top.rules (c :: cs) <;> rfl

end Tidy

/-! ### What a tidy text ends with -/

theorem getLast?_ne_of_avoids {rule : Rule} {c : Char} (h : rule.pattern.avoids c = true)
    {cs : List Char} {m : Match} (hm : rule.match? cs = some m) : m.text.getLast? ≠ some c := by
  intro hlast
  exact Pattern.forall_mem_of_match? (Pattern.readsOnly_of_avoids h)
    (Rule.match?_eq_some_iff.1 hm).1 c (List.mem_of_getLast? hlast) rfl

/-- The rules for code that may read a backslash. -/
theorem filter_avoids_backslash : rootRules.filter (!·.pattern.avoids '\\') =
    [⟨"comment.line", .lineComment, .emit .lineComment, .stay⟩,
      ⟨"string.unterminated", .unterminatedString, .emit .stringInvalid, .stay⟩,
      ⟨"char.escape", .charEscapeLiteral, .enclosed .char .stringEscape, .stay⟩] := rfl

theorem avoids_backslash_of_pop (region : Region) : ∀ rule ∈ (Mode.inside region).rules,
    rule.transition = .pop → rule.pattern.avoids '\\' = true := by
  cases region <;> decide

/-- A step into code ends in a backslash only if it reads a fault or a line comment. -/
theorem step_text_getLast? {start : Nat} {modes : ModeStack} {c : Char} {cs : List Char}
    (hafter : (step start modes c cs).after = {})
    (hfault : ∀ t ∈ (step start modes c cs).tokens, t.category.isFault = false)
    (hcomment : ∀ t ∈ (step start modes c cs).tokens.getLast?, t.category ≠ .lineComment) :
    (step start modes c cs).text.getLast? ≠ some '\\' := by
  rcases step_cases start modes c cs with ⟨rule, m, hmem, hmatch, hstep⟩ | hstep
  · rw [hstep] at hafter hfault hcomment ⊢
    by_cases havoids : rule.pattern.avoids '\\' = true
    · exact getLast?_ne_of_avoids havoids hmatch
    rcases modes.top_cases with htop | ⟨region, htop⟩
    · rw [htop] at hmem
      have hrule : rule ∈ rootRules.filter (!·.pattern.avoids '\\') :=
        List.mem_filter.2 ⟨hmem, by simpa using havoids⟩
      rw [filter_avoids_backslash] at hrule
      simp only [List.mem_cons, List.not_mem_nil, or_false] at hrule
      rcases hrule with rfl | rfl | rfl
      · exact absurd rfl (hcomment _ rfl)
      · exact Bool.noConfusion (hfault _ (List.mem_singleton_self _))
      · obtain ⟨body, -, htext, -⟩ :=
          Pattern.exists_of_match?_charEscapeLiteral (Rule.match?_eq_some_iff.1 hmatch).1
        rw [htext, ← List.cons_append, List.getLast?_concat]
        decide
    · -- a region is left only by its end
      rw [htop] at hmem
      rcases transition_of_mem_insideRules region rule hmem with ht | ht
      · have hroot : modes = {} := by simpa [Step.after, ht, Transition.apply] using hafter
        rw [hroot] at htop
        simp [ModeStack.top] at htop
      · exact absurd (avoids_backslash_of_pop region rule hmem ht) havoids
  · rw [hstep] at hfault
    exact Bool.noConfusion (hfault _ (List.mem_singleton_self _))

/-- Without faults, a text that ends in code but in no line comment ends in no backslash. -/
theorem getLast?_of_faultless {start : Nat} {modes : ModeStack} {cs : List Char}
    (hfinal : finalModes modes cs = {})
    (hfault : ∀ t ∈ (steps start modes cs).flatMap Step.tokens, t.category.isFault = false)
    (hcomment : ∀ t ∈ ((steps start modes cs).flatMap Step.tokens).getLast?,
      t.category ≠ .lineComment) : cs.getLast? ≠ some '\\' := by
  fun_induction steps start modes cs with
  | case1 => simp
  | case2 start modes c cs s ih =>
    have hfinal : finalModes s.after s.rest = {} := by rwa [finalModes_cons start] at hfinal
    rw [List.flatMap_cons] at hfault hcomment
    have hsplit : c :: cs = s.text ++ s.rest := (step_split start modes c cs).symm
    rw [hsplit, List.getLast?_append]
    cases hrest : s.rest with
    | nil =>
      rw [hrest, finalModes_nil] at hfinal
      rw [hrest, steps_nil, List.flatMap_nil, List.append_nil] at hcomment
      exact step_text_getLast? hfinal (fun t ht => hfault t (List.mem_append_left _ ht)) hcomment
    | cons d ds =>
      have hlast := ih hfinal (fun t ht => hfault t (List.mem_append_right _ ht))
        fun t ht => hcomment t (getLast?_of_append ht)
      rw [hrest, List.getLast?_cons] at hlast
      rw [List.getLast?_cons]
      exact hlast

end Tokenizer
