import Mathlib.Data.List.Forall2
import Tokenizer.Proofs.Filler
import Tokenizer.Proofs.Run

/-!
Comments unit by unit. The text of a comment is made of single characters and of the `*/` that
ends it; in a doc comment a `/*` is a unit too. Each step inside a comment reads some units.
-/
namespace Tokenizer

/-! ### The units of a comment -/

inductive CommentUnit where
  | text (c : Char)
  /-- A `/*` that opens nothing. -/
  | nested
  | close
deriving DecidableEq, Repr

def CommentUnit.chars : CommentUnit → List Char
  | text c => [c]
  | nested => ['/', '*']
  | close => ['*', '/']

theorem flatMap_chars_text (cs : List Char) :
    (cs.map CommentUnit.text).flatMap CommentUnit.chars = cs := by
  rw [List.flatMap_map]
  exact List.flatMap_singleton' cs

/--
The units of a comment up to its end, and the text after it. Only where `nests` is set is a `/*` a
unit of its own.
-/
def commentUnits (nests : Bool) : List Char → List CommentUnit × List Char
  | [] => ([], [])
  | c :: cs =>
    if c = '*' ∧ cs.head? = some '/' then
      ([.close], cs.tail)
    else if nests = true ∧ c = '/' ∧ cs.head? = some '*' then
      let (us, rest) := commentUnits nests cs.tail
      (.nested :: us, rest)
    else
      let (us, rest) := commentUnits nests cs
      (.text c :: us, rest)
termination_by t => t.length
decreasing_by
  all_goals
    simp only [List.length_tail, List.length_cons]
    omega

section
variable (nests : Bool)

theorem commentUnits_nil : commentUnits nests [] = ([], []) := by
  rw [commentUnits]

theorem commentUnits_close (rest : List Char) :
    commentUnits nests ('*' :: '/' :: rest) = ([.close], rest) := by
  rw [commentUnits]
  rfl

theorem commentUnits_nested (rest : List Char) :
    commentUnits true ('/' :: '*' :: rest) =
      (.nested :: (commentUnits true rest).1, (commentUnits true rest).2) := by
  rw [commentUnits]
  rfl

theorem commentUnits_text {c : Char} {cs : List Char}
    (hclose : ¬(c = '*' ∧ cs.head? = some '/'))
    (hnested : ¬(nests = true ∧ c = '/' ∧ cs.head? = some '*')) :
    commentUnits nests (c :: cs) =
      (.text c :: (commentUnits nests cs).1, (commentUnits nests cs).2) := by
  rw [commentUnits, if_neg hclose, if_neg hnested]

theorem commentUnits_plain {xs : List Char} (hxs : ∀ x ∈ xs, x ≠ '/' ∧ x ≠ '*')
    (ys : List Char) :
    commentUnits nests (xs ++ ys) =
      (xs.map .text ++ (commentUnits nests ys).1, (commentUnits nests ys).2) := by
  induction xs with
  | nil => rfl
  | cons x xs ih =>
    obtain ⟨⟨hslash, hstar⟩, hxs⟩ := List.forall_mem_cons.1 hxs
    rw [List.cons_append, commentUnits_text nests (by simp [hstar]) (by simp [hslash]), ih hxs]
    rfl

/-- The units and what follows them make up the text. -/
theorem flatMap_chars_commentUnits (t : List Char) :
    (commentUnits nests t).1.flatMap CommentUnit.chars ++ (commentUnits nests t).2 = t := by
  fun_induction commentUnits nests t with
  | case1 => rfl
  | case2 c cs h =>
    obtain ⟨rfl, hhead⟩ := h
    obtain ⟨rest, rfl⟩ := List.head?_eq_some_iff.1 hhead
    rfl
  | case3 c cs _ h us rest heq ih =>
    obtain ⟨-, rfl, hhead⟩ := h
    obtain ⟨tail, rfl⟩ := List.head?_eq_some_iff.1 hhead
    rw [heq] at ih
    simp only [List.tail_cons] at ih
    simp [CommentUnit.chars, ih]
  | case4 c cs _ _ us rest heq ih =>
    rw [heq] at ih
    simp [CommentUnit.chars, ih]

end

/-! ### The steps of a comment -/

/-- The comment in which a `/*` is a unit is the doc comment. -/
def commentRegion : Bool → Region
  | true => .docComment
  | false => .blockComment

def commentCategory (nests : Bool) : Category := (Mode.inside (commentRegion nests)).fillerCategory

def commentCloseRule (nests : Bool) : Rule :=
  ⟨bif nests then "doc.close" else "comment.close", .commentClose,
    .emit (commentCategory nests), .pop⟩

def commentSymbolRule (nests : Bool) : Rule :=
  ⟨bif nests then "doc.symbol" else "comment.symbol", .commentSymbol,
    .emit (commentCategory nests), .stay⟩

def nestedRule : Rule :=
  ⟨"doc.nested", .blockCommentOpen, .emit .docCommentInvalid, .stay⟩

/-- What a step of a comment reads, and what it leaves of the open regions. -/
inductive Step.ReadsUnits (nests : Bool) (modes : ModeStack) (s : Step) : List CommentUnit → Prop
  | text : s.tokens = [⟨commentCategory nests, s.start, s.text⟩] → s.after = modes →
      ReadsUnits nests modes s (s.text.map .text)
  | nested : nests = true → s.tokens = [⟨.docCommentInvalid, s.start, ['/', '*']⟩] →
      s.after = modes → ReadsUnits nests modes s [.nested]
  | close : s.tokens = [⟨commentCategory nests, s.start, ['*', '/']⟩] →
      s.after = modes.leave → ReadsUnits nests modes s [.close]

section
variable {nests : Bool} {modes : ModeStack} (htop : modes.top = .inside (commentRegion nests))
include htop

theorem first?_comment_star (cs : List Char) :
    Rule.first? modes.top.rules ('*' :: cs) =
      Rule.first? [commentCloseRule nests, commentSymbolRule nests] ('*' :: cs) := by
  rw [htop, ← Rule.first?_filter_canStart]
  cases nests <;> rfl

theorem first?_comment_slash (cs : List Char) :
    Rule.first? modes.top.rules ('/' :: cs) =
      Rule.first? (bif nests then [nestedRule, commentSymbolRule nests]
        else [commentSymbolRule nests]) ('/' :: cs) := by
  rw [htop, ← Rule.first?_filter_canStart]
  cases nests <;> rfl

theorem step_comment_close (start : Nat) (cs : List Char) :
    step start modes '*' ('/' :: cs) =
      ⟨start, modes, some (commentCloseRule nests), ['*', '/'], cs⟩ := by
  have hfirst := first?_comment_star htop ('/' :: cs)
  rw [step, hfirst]
  rfl

/-- A star that no slash follows is text. -/
theorem step_comment_star (start : Nat) {cs : List Char} (h : cs.head? ≠ some '/') :
    step start modes '*' cs = ⟨start, modes, some (commentSymbolRule nests), ['*'], cs⟩ := by
  have hclose : (commentCloseRule nests).match? ('*' :: cs) = none := by
    cases cs with
    | nil => rfl
    | cons d cs =>
      have hd : d ≠ '/' := by simpa using h
      simp [Rule.match?, commentCloseRule, Pattern.commentClose, Pattern.literal, hd]
  have hfirst := first?_comment_star htop cs
  rw [Rule.first?_cons_of_eq_none hclose] at hfirst
  rw [step, hfirst]
  rfl

/-- A slash is text, unless it starts a unit with the star after it. -/
theorem step_comment_slash (start : Nat) {cs : List Char}
    (h : ¬(nests = true ∧ cs.head? = some '*')) :
    step start modes '/' cs = ⟨start, modes, some (commentSymbolRule nests), ['/'], cs⟩ := by
  have hfirst := first?_comment_slash htop cs
  cases nests with
  | false =>
    rw [step, hfirst]
    rfl
  | true =>
    have hnested : nestedRule.match? ('/' :: cs) = none := by
      cases cs with
      | nil => rfl
      | cons d cs =>
        have hd : d ≠ '*' := by simpa using h
        simp [Rule.match?, nestedRule, Pattern.blockCommentOpen, Pattern.literal, hd]
    rw [cond_true, Rule.first?_cons_of_eq_none hnested] at hfirst
    rw [step, hfirst]
    rfl

/-- Text without slashes and stars is read in one step. -/
theorem step_comment_plain (start : Nat) {c : Char} (hc : c ≠ '/' ∧ c ≠ '*') (cs : List Char) :
    ∃ text, (step start modes c cs).ReadsUnits nests modes (text.map .text) ∧
      text ++ (step start modes c cs).rest = c :: cs ∧ ∀ x ∈ text, x ≠ '/' ∧ x ≠ '*' := by
  have hplain : ∀ x, modes.top.isFiller x = true ↔ x ≠ '/' ∧ x ≠ '*' := by
    intro x
    rw [htop]
    cases nests <;> simp [commentRegion, Mode.isFiller]
  have hstep := step_of_isFiller start modes ((hplain c).2 hc) cs
  refine ⟨(c :: cs).takeWhile modes.top.isFiller, ?_, ?_, ?_⟩
  · rw [hstep, htop]
    exact .text rfl rfl
  · rw [hstep]
    exact List.takeWhile_append_dropWhile
  · intro x hx
    exact (hplain x).1 (List.mem_takeWhile_imp hx)

end

theorem step_doc_nested {modes : ModeStack} (htop : modes.top = .inside .docComment) (start : Nat)
    (cs : List Char) :
    step start modes '/' ('*' :: cs) = ⟨start, modes, some nestedRule, ['/', '*'], cs⟩ := by
  have htop' : modes.top = .inside (commentRegion true) := htop
  have hfirst := first?_comment_slash htop' ('*' :: cs)
  rw [step, hfirst]
  rfl

/-- A step of a comment reads the next units, the last of them at the end of the comment. -/
theorem step_comment {nests : Bool} {modes : ModeStack}
    (htop : modes.top = .inside (commentRegion nests)) (start : Nat) (c : Char) (cs : List Char) :
    ((step start modes c cs).ReadsUnits nests modes [.close] ∧
      commentUnits nests (c :: cs) = ([.close], (step start modes c cs).rest)) ∨
    ∃ us, (step start modes c cs).ReadsUnits nests modes us ∧ .close ∉ us ∧
      commentUnits nests (c :: cs) =
        (us ++ (commentUnits nests (step start modes c cs).rest).1,
          (commentUnits nests (step start modes c cs).rest).2) := by
  by_cases hclose : c = '*' ∧ cs.head? = some '/'
  · left
    obtain ⟨rfl, hhead⟩ := hclose
    obtain ⟨rest, rfl⟩ := List.head?_eq_some_iff.1 hhead
    rw [step_comment_close htop, commentUnits_close]
    exact ⟨.close rfl rfl, rfl⟩
  right
  by_cases hnested : nests = true ∧ c = '/' ∧ cs.head? = some '*'
  · obtain ⟨rfl, rfl, hhead⟩ := hnested
    obtain ⟨rest, rfl⟩ := List.head?_eq_some_iff.1 hhead
    rw [step_doc_nested htop, commentUnits_nested]
    exact ⟨[.nested], .nested rfl rfl rfl, by simp, rfl⟩
  have hunits := commentUnits_text nests hclose hnested
  by_cases hstar : c = '*'
  · subst hstar
    have hhead : cs.head? ≠ some '/' := by simpa using hclose
    rw [step_comment_star htop start hhead, hunits]
    exact ⟨[.text '*'], .text rfl rfl, by simp, rfl⟩
  by_cases hslash : c = '/'
  · subst hslash
    have hhead : ¬(nests = true ∧ cs.head? = some '*') := by simpa using hnested
    rw [step_comment_slash htop start hhead, hunits]
    exact ⟨[.text '/'], .text rfl rfl, by simp, rfl⟩
  · obtain ⟨text, hreads, hsplit, hplain⟩ := step_comment_plain htop start ⟨hslash, hstar⟩ cs
    have hread := commentUnits_plain nests hplain (step start modes c cs).rest
    rw [hsplit] at hread
    exact ⟨text.map .text, hreads, by simp, hread⟩

/-! ### The whole comment -/

theorem ModeStack.leave_ne {modes : ModeStack} {region : Region}
    (htop : modes.top = .inside region) : modes.leave ≠ modes := by
  obtain ⟨regions⟩ := modes
  cases regions with
  | nil => simp [top] at htop
  | cons r regions => simp [leave]

namespace Step.ReadsUnits

variable {nests : Bool} {modes : ModeStack} {s : Step} {us : List CommentUnit}

theorem chars (h : s.ReadsUnits nests modes us) : us.flatMap CommentUnit.chars = s.text := by
  have htext := s.flatMap_text_tokens
  cases h with
  | text htokens => exact flatMap_chars_text s.text
  | nested _ htokens =>
    rw [htokens] at htext
    exact htext
  | close htokens =>
    rw [htokens] at htext
    exact htext

theorem after_eq (h : s.ReadsUnits nests modes us) (hopen : .close ∉ us) : s.after = modes := by
  cases h with
  | text _ hafter => exact hafter
  | nested _ _ hafter => exact hafter
  | close => simp at hopen

theorem after_close (h : s.ReadsUnits nests modes [.close]) : s.after = modes.leave := by
  generalize hus : [CommentUnit.close] = us at h
  cases h with
  | text =>
    have hmem : .close ∈ s.text.map CommentUnit.text := by rw [← hus]; simp
    simp at hmem
  | nested => simp at hus
  | close _ hafter => exact hafter

theorem category_eq (h : s.ReadsUnits false modes us) :
    ∀ t ∈ s.tokens, t.category = .blockComment := by
  cases h with
  | text htokens => simp [htokens, commentCategory, commentRegion, Mode.fillerCategory]
  | nested hnests => simp at hnests
  | close htokens => simp [htokens, commentCategory, commentRegion, Mode.fillerCategory]

end Step.ReadsUnits

/-- Steps that read units of a comment, none of them its end, leave it open. -/
theorem after_eq_of_forall₂ {nests : Bool} {modes : ModeStack} {inner : List Step}
    {uss : List (List CommentUnit)} (h : List.Forall₂ (Step.ReadsUnits nests modes) inner uss)
    (hopen : .close ∉ uss.flatten) : ∀ s ∈ inner, s.after = modes := by
  induction h with
  | nil => simp
  | cons hreads _ ih =>
    rw [List.flatten_cons, List.mem_append, not_or] at hopen
    exact List.forall_mem_cons.2 ⟨hreads.after_eq hopen.1, ih hopen.2⟩

theorem text_of_forall₂ {nests : Bool} {modes : ModeStack} {inner : List Step}
    {uss : List (List CommentUnit)} (h : List.Forall₂ (Step.ReadsUnits nests modes) inner uss) :
    inner.flatMap Step.text = uss.flatten.flatMap CommentUnit.chars := by
  induction h with
  | nil => rfl
  | cons hreads _ ih =>
    rw [List.flatMap_cons, List.flatten_cons, List.flatMap_append, hreads.chars, ih]

theorem category_of_forall₂ {modes : ModeStack} {inner : List Step}
    {uss : List (List CommentUnit)} (h : List.Forall₂ (Step.ReadsUnits false modes) inner uss) :
    ∀ t ∈ inner.flatMap Step.tokens, t.category = .blockComment := by
  induction h with
  | nil => simp
  | cons hreads _ ih =>
    rw [List.flatMap_cons]
    exact List.forall_mem_append.2 ⟨hreads.category_eq, ih⟩

/--
A comment is read unit by unit. Either it goes on to the end of the text, or a step reads its end,
and what follows is read in the modes outside.
-/
theorem steps_comment {nests : Bool} (start : Nat) {modes : ModeStack}
    (htop : modes.top = .inside (commentRegion nests)) (t : List Char) :
    ∃ inner uss, List.Forall₂ (Step.ReadsUnits nests modes) inner uss ∧ .close ∉ uss.flatten ∧
      (commentUnits nests t = (uss.flatten, []) ∧ steps start modes t = inner ∨
        ∃ last rest, last.ReadsUnits nests modes [.close] ∧
          commentUnits nests t = (uss.flatten ++ [.close], rest) ∧
          steps start modes t = inner ++ last :: steps last.stop modes.leave rest) := by
  induction start, modes, t using steps.induct with
  | case1 start modes => exact ⟨[], [], .nil, by simp, .inl ⟨commentUnits_nil nests, steps_nil _ _⟩⟩
  | case2 start modes c cs s ih =>
    rw [steps_cons]
    rcases step_comment htop start c cs with ⟨hreads, hunits⟩ | ⟨us, hreads, hopen, hunits⟩
    · refine ⟨[], [], .nil, by simp, .inr ⟨s, s.rest, hreads, hunits, ?_⟩⟩
      rw [← hreads.after_close]
      rfl
    · have hafter : s.after = modes := hreads.after_eq hopen
      obtain ⟨inner, uss, hall, hinner, hend⟩ := ih (by rw [hafter]; exact htop)
      rw [hafter] at hall hend
      refine ⟨s :: inner, us :: uss, .cons hreads hall, ?_, ?_⟩
      · rw [List.flatten_cons, List.mem_append, not_or]
        exact ⟨hopen, hinner⟩
      · rw [hunits, hreads.after_eq hopen, List.flatten_cons]
        rcases hend with ⟨hrest, hsteps⟩ | ⟨last, rest, hlast, hrest, hsteps⟩
        · exact .inl ⟨by rw [hrest], by rw [hsteps]⟩
        · exact .inr ⟨last, rest, hlast, by rw [hrest, List.append_assoc],
            by rw [hsteps]; rfl⟩

theorem endModes_of_after_eq {modes : ModeStack} {taken : List Step}
    (h : ∀ s ∈ taken, s.after = modes) : endModes modes taken = modes := by
  induction taken with
  | nil => rfl
  | cons s taken ih =>
    obtain ⟨hs, htaken⟩ := List.forall_mem_cons.1 h
    rw [endModes_cons, hs, ih htaken]

/-- The steps of a scan stop where their texts end. -/
theorem stop_of_steps_eq {start : Nat} {modes : ModeStack} {t : List Char}
    {inner after : List Step} {last : Step} (h : steps start modes t = inner ++ last :: after) :
    last.stop = start + Text.width ((inner ++ [last]).flatMap Step.text) := by
  obtain ⟨c, rest, -, hlast, -⟩ := steps_eq_append_cons h
  have hstart : last.start = start + Text.width (inner.flatMap Step.text) := by
    rw [hlast, step_start]
  rw [Step.stop, hstart, List.flatMap_append, Text.width_append, List.flatMap_singleton,
    Nat.add_assoc]

end Tokenizer
