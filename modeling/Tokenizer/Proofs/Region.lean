import Mathlib.Data.List.Induction
import Tokenizer.Diagnostic.Collect
import Tokenizer.Proofs.Run

/-!
Open regions. Only code opens a region, and within a region nothing but its end closes it. From a
fresh stack at most one region is open at a time, and the offset kept beside the scan is the place
at which that region was opened.
-/
namespace Tokenizer

theorem ModeStack.eq_of_top_eq_root {modes : ModeStack} (h : modes.top = .root) : modes = {} := by
  obtain ⟨regions⟩ := modes
  cases regions with
  | nil => rfl
  | cons region regions => simp [top] at h

theorem transition_ne_pop_of_mem_rootRules : ∀ rule ∈ rootRules, rule.transition ≠ .pop := by
  decide

theorem transition_of_mem_insideRules (region : Region) :
    ∀ rule ∈ (Mode.inside region).rules, rule.transition = .stay ∨ rule.transition = .pop := by
  cases region <;> decide

structure Step.Opens (s : Step) (region : Region) : Prop where
  mode_eq : s.mode = .root
  after_eq : s.after = s.modes.enter region

/-- In code a step leaves the regions alone or opens one. -/
theorem after_of_root {modes : ModeStack} (htop : modes.top = .root) (start : Nat) (c : Char)
    (cs : List Char) :
    (step start modes c cs).after = modes ∨
      ∃ region, (step start modes c cs).Opens region := by
  rcases step_cases start modes c cs with ⟨rule, m, hmem, -, hstep⟩ | hstep
  · rw [hstep]
    rw [htop] at hmem
    cases ht : rule.transition with
    | stay => exact .inl (by simp [Step.after, ht, Transition.apply])
    | push region => exact .inr ⟨region, htop, by simp [Step.after, ht, Transition.apply]⟩
    | pop => exact absurd ht (transition_ne_pop_of_mem_rootRules rule hmem)
  · rw [hstep]
    exact .inl rfl

/-- In a region a step leaves the regions alone or closes this one. -/
theorem after_of_inside {modes : ModeStack} {region : Region} (htop : modes.top = .inside region)
    (start : Nat) (c : Char) (cs : List Char) :
    (step start modes c cs).after = modes ∨ (step start modes c cs).after = modes.leave := by
  rcases step_cases start modes c cs with ⟨rule, m, hmem, -, hstep⟩ | hstep
  · rw [hstep]
    rw [htop] at hmem
    rcases transition_of_mem_insideRules region rule hmem with ht | ht
    · exact .inl (by simp [Step.after, ht, Transition.apply])
    · exact .inr (by simp [Step.after, ht, Transition.apply])
  · rw [hstep]
    exact .inl rfl

/-! ### The place at which a region was opened -/

theorem Step.openedAt_of_le {s : Step} (h : s.after.depth ≤ s.modes.depth) (opened : Nat) :
    s.openedAt opened = opened := by
  rw [openedAt, if_neg (by omega)]

theorem Step.Opens.openedAt {s : Step} {region : Region} (h : s.Opens region) (opened : Nat) :
    s.openedAt opened = s.token.start := by
  have hdepth : s.modes.depth < s.after.depth := by
    rw [h.after_eq]
    exact Nat.lt_succ_self _
  rw [Step.openedAt, if_pos hdepth]
  rfl

theorem openedAt_of_inside {modes : ModeStack} {region : Region}
    (htop : modes.top = .inside region) (start : Nat) (c : Char) (cs : List Char) (opened : Nat) :
    (step start modes c cs).openedAt opened = opened := by
  apply Step.openedAt_of_le
  rw [step_modes]
  rcases after_of_inside htop start c cs with h | h
  · exact Nat.le_of_eq (congrArg ModeStack.depth h)
  · rw [h]
    simp [ModeStack.leave, ModeStack.depth]

/-- The offset that is kept beside a scan, after the steps `taken`. -/
def openedAfter (taken : List Step) : Nat := taken.foldl (fun opened s => s.openedAt opened) 0

theorem openedAfter_append_singleton (taken : List Step) (s : Step) :
    openedAfter (taken ++ [s]) = s.openedAt (openedAfter taken) := by
  simp [openedAfter]

/-- The region that `opener` opened is still open after the steps `taken`. -/
def OpenedBy (taken : List Step) (opener : Step) (region : Region) : Prop :=
  opener.Opens region ∧
    ∃ before inside, taken = before ++ opener :: inside ∧ ∀ u ∈ inside, u.after = opener.after

theorem OpenedBy.append {taken : List Step} {opener s : Step} {region : Region}
    (h : OpenedBy taken opener region) (hs : s.after = opener.after) :
    OpenedBy (taken ++ [s]) opener region := by
  obtain ⟨hopens, before, inside, rfl, hinside⟩ := h
  refine ⟨hopens, before, inside ++ [s], by simp, ?_⟩
  exact List.forall_mem_append.2 ⟨hinside, by simpa using hs⟩

/-- `modes` and `opened` tell which region is open after the steps `taken`, and since where. -/
inductive Tracks (taken : List Step) : ModeStack → Nat → Prop
  | code (opened : Nat) : Tracks taken {} opened
  | region {opener : Step} {region : Region} :
      OpenedBy taken opener region → Tracks taken ⟨[region]⟩ opener.token.start

theorem Tracks.openedBy {taken : List Step} {modes : ModeStack} {opened : Nat}
    (h : Tracks taken modes opened) {region : Region} (htop : modes.top = .inside region) :
    ∃ opener, OpenedBy taken opener region ∧ opened = opener.token.start := by
  cases h with
  | code => simp [ModeStack.top] at htop
  | @region opener r hopened =>
    obtain rfl : r = region := by simpa [ModeStack.top] using htop
    exact ⟨opener, hopened, rfl⟩

/-- One step keeps track of the open region. -/
theorem Tracks.step {taken : List Step} {modes : ModeStack} {opened : Nat}
    (h : Tracks taken modes opened) (start : Nat) (c : Char) (cs : List Char) :
    Tracks (taken ++ [Tokenizer.step start modes c cs]) (Tokenizer.step start modes c cs).after
      ((Tokenizer.step start modes c cs).openedAt opened) := by
  cases h with
  | code opened =>
    have hroot : ModeStack.top {} = .root := rfl
    rcases after_of_root hroot start c cs with hstay | ⟨region, hopens⟩
    · rw [hstay]
      exact .code _
    · have hafter := hopens.after_eq
      rw [step_modes] at hafter
      rw [hafter, hopens.openedAt]
      exact .region ⟨hopens, taken, [], rfl, by simp⟩
  | @region opener region hopened =>
    have hinside : ModeStack.top ⟨[region]⟩ = .inside region := rfl
    have hopener : opener.after = ⟨[region]⟩ := by
      rw [hopened.1.after_eq, ModeStack.eq_of_top_eq_root hopened.1.mode_eq]
      rfl
    rw [openedAt_of_inside hinside]
    rcases after_of_inside hinside start c cs with hstay | hleave
    · rw [hstay]
      exact .region (hopened.append (hstay.trans hopener.symm))
    · rw [hleave]
      exact .code _

/-- A scan from a fresh stack keeps track of the open region all along. -/
theorem tracks_of_scan {source : List Char} {before after : List Step}
    (h : scan {} source = before ++ after) :
    Tracks before (endModes {} before) (openedAfter before) := by
  induction before using List.reverseRecOn generalizing after with
  | nil => exact .code 0
  | append_singleton before s ih =>
    rw [List.append_assoc] at h
    obtain ⟨c, rest, -, hs, -⟩ := steps_eq_append_cons h
    have hstep := (ih h).step (0 + Text.width (before.flatMap Step.text)) c rest
    rw [← hs] at hstep
    rw [endModes_append, openedAfter_append_singleton]
    exact hstep

/-- A step within a region goes with the step that opened the region. -/
theorem exists_openedBy {source : List Char} {before after : List Step} {s : Step}
    (hscan : scan {} source = before ++ s :: after) {region : Region}
    (hinside : s.mode = .inside region) :
    ∃ opener, OpenedBy before opener region ∧
      s.openedAt (openedAfter before) = opener.token.start := by
  obtain ⟨c, rest, -, hs, -⟩ := steps_eq_append_cons hscan
  rw [Step.mode, hs, step_modes] at hinside
  obtain ⟨opener, hopener, hstart⟩ := (tracks_of_scan hscan).openedBy hinside
  refine ⟨opener, hopener, ?_⟩
  rw [hs, openedAt_of_inside hinside, hstart]

end Tokenizer
