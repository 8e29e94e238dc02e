import Mathlib.Data.List.Forall2
import Tokenizer.Proofs.Fault
import Tokenizer.Stream

/-!
The faults of a source as a whole: one for each invalid token, in order, and at the end one for a
region that is still open. They can be collected from a stream while its tokens are read.
-/
namespace Tokenizer

/-! ### The faults of the tokens -/

theorem forall₂_filter_filterMap {α β : Type} {R : α → β → Prop} {p : α → Bool} {f : α → Option β}
    {l : List α} (hsome : ∀ a ∈ l, p a = true → ∃ b, f a = some b ∧ R a b)
    (hnone : ∀ a ∈ l, p a = false → f a = none) :
    List.Forall₂ R (l.filter p) (l.filterMap f) := by
  induction l with
  | nil => exact .nil
  | cons a l ih =>
    obtain ⟨hsome, hsomes⟩ := List.forall_mem_cons.1 hsome
    obtain ⟨hnone, hnones⟩ := List.forall_mem_cons.1 hnone
    have hrest := ih hsomes hnones
    cases hp : p a with
    | true =>
      obtain ⟨b, hb, hr⟩ := hsome hp
      rw [List.filter_cons_of_pos hp, List.filterMap_cons_some hb]
      exact .cons hr hrest
    | false =>
      rw [List.filter_cons_of_neg (by simp [hp]), List.filterMap_cons_none (hnone hp)]
      exact hrest

theorem filterMap_cons_eq_append {α β : Type} (f : α → Option β) (a : α) (l : List α) :
    (a :: l).filterMap f = (f a).toList ++ l.filterMap f := by
  cases h : f a <;> simp [h]

/-- Each invalid token of a scan gets its fault, and no other token gets one. -/
theorem forall₂_ofSteps {source : List Char} {before after : List Step}
    (h : scan {} source = before ++ after) :
    List.Forall₂ (Explains source) ((after.flatMap Step.tokens).filter (·.category.isFault))
      (Diagnostic.ofSteps (openedAfter before) after) := by
  induction after generalizing before with
  | nil => exact .nil
  | cons s after ih =>
    have hrest : scan {} source = (before ++ [s]) ++ after := by
      rw [h, List.append_assoc]
      rfl
    have hafter := ih hrest
    rw [openedAfter_append_singleton] at hafter
    rw [List.flatMap_cons, List.filter_append, Diagnostic.ofSteps]
    refine List.rel_append ?_ hafter
    apply forall₂_filter_filterMap
    · intro t ht hfault
      exact exists_ofToken? h ht hfault
    · intro t _ hfault
      exact Diagnostic.ofToken?_eq_none hfault

/-! ### The end of the source -/

/-- What the end of a source adds: a fault if a region is still open, and nothing in code. -/
inductive EndFault (source : List Char) : List Diagnostic → Prop
  | code : (finalModes {} source).top = .root → EndFault source []
  | unclosed {opener : Step} {region : Region} {d : Diagnostic} :
      (finalModes {} source).top = .inside region → OpenedBy (scan {} source) opener region →
      d.span = ⟨opener.token.start, Text.width source⟩ → d.cause = region.unclosedCause →
      d.context = region.context opener.token.start → EndFault source [d]

theorem exists_endFault (source : List Char) :
    ∃ last, diagnose source = Diagnostic.ofSteps 0 (scan {} source) ++ last ∧
      EndFault source last := by
  have htracks := tracks_of_scan (List.append_nil (scan {} source)).symm
  refine ⟨_, rfl, ?_⟩
  change EndFault source (((finalModes {} source).regions.head?.map
    (Diagnostic.unclosed ⟨openedAfter (scan {} source), Text.width source⟩)).toList)
  change Tracks _ (finalModes {} source) _ at htracks
  generalize hmodes : finalModes {} source = modes at htracks ⊢
  generalize openedAfter (scan {} source) = opened at htracks ⊢
  cases htracks with
  | code => exact .code (by rw [hmodes]; rfl)
  | @region opener region hopened =>
    refine .unclosed (by rw [hmodes]; rfl) hopened ?_ ?_ ?_ <;> cases region <;> rfl

theorem EndFault.eq_nil_iff {source : List Char} {last : List Diagnostic}
    (h : EndFault source last) : last = [] ↔ finalModes {} source = {} := by
  cases h with
  | code htop => simpa using ModeStack.eq_of_top_eq_root htop
  | unclosed htop =>
    have hne : finalModes {} source ≠ {} := by
      intro hmodes
      simp [hmodes, ModeStack.top] at htop
    simpa using hne

/-! ### Faults of a stream -/

/--
Reads a stream to its end and collects the faults on the way. The place at which the innermost
region was opened is kept beside it, and renewed when a token makes the stack of modes grow.
-/
def Stream.faults (opened : Nat) (s : Stream) : List Diagnostic :=
  match _h : s.next? with
  | none => (s.modes.regions.head?.map (Diagnostic.unclosed ⟨opened, s.offset⟩)).toList
  | some (t, s') =>
    let opened := if s.modes.depth < s'.modes.depth then t.start else opened
    (Diagnostic.ofToken? s.modes.top opened t).toList ++ faults opened s'
termination_by s.remaining.length
decreasing_by
  rw [Stream.remaining_of_next? _h]
  exact Nat.lt_succ_self _

namespace Stream

theorem faults_of_next?_eq_none {s : Stream} (h : s.next? = none) (opened : Nat) :
    s.faults opened =
      (s.modes.regions.head?.map (Diagnostic.unclosed ⟨opened, s.offset⟩)).toList := by
  rw [faults]
  split
  · rfl
  · rename_i hsome
    simp [h] at hsome

theorem faults_of_next? {s s' : Stream} {t : Token} (h : s.next? = some (t, s')) {opened n : Nat}
    (hn : n = if s.modes.depth < s'.modes.depth then t.start else opened) :
    s.faults opened = (Diagnostic.ofToken? s.modes.top n t).toList ++ s'.faults n := by
  rw [faults]
  split
  · rename_i hnone
    simp [h] at hnone
  · rename_i t' u hsome
    obtain ⟨rfl, rfl⟩ : t = t' ∧ s' = u := by simpa [h] using hsome
    rw [hn]

theorem faults_queue (s : Stream) (opened : Nat) (ts : List Token) :
    faults opened { s with queue := ts } =
      ts.filterMap (Diagnostic.ofToken? s.modes.top opened) ++
        faults opened { s with queue := [] } := by
  induction ts with
  | nil => rfl
  | cons t ts ih =>
    have hnext : next? { s with queue := t :: ts } = some (t, { s with queue := ts }) := rfl
    rw [faults_of_next? hnext (if_neg (Nat.lt_irrefl _)).symm, ih, filterMap_cons_eq_append,
      List.append_assoc]

end Stream

/-- A step that queues tokens leaves the modes alone. -/
theorem queued_eq_nil_or_after_eq (start : Nat) (modes : ModeStack) (c : Char) (cs : List Char) :
    (step start modes c cs).queued = [] ∨ (step start modes c cs).after = modes := by
  rcases step_cases start modes c cs with ⟨rule, m, hmem, -, hstep⟩ | hstep
  · rw [hstep]
    rcases isSingle_or_charEscape _ rule hmem with hsingle | rfl
    · left
      rw [Step.queued, Step.lexemes, Action.lexemes_of_isSingle hsingle]
      rfl
    · exact .inr rfl
  · rw [hstep]
    exact .inl rfl

/-- Reading the tokens one by one gives the faults of the steps. -/
theorem Stream.faults_eq_ofSteps (source : List Char) (offset : Nat) (modes : ModeStack)
    (rest : List Char) (opened : Nat) :
    faults opened ⟨source, offset, rest, modes, []⟩ =
      Diagnostic.ofSteps opened (steps offset modes rest) ++
        ((endModes modes (steps offset modes rest)).regions.head?.map (Diagnostic.unclosed
          ⟨(steps offset modes rest).foldl (fun opened s => s.openedAt opened) opened,
            offset + Text.width rest⟩)).toList := by
  fun_induction steps offset modes rest generalizing opened with
  | case1 offset modes =>
    rw [faults_of_next?_eq_none rfl]
    rfl
  | case2 offset modes c cs s ih =>
    have hmodes : s.modes = modes := step_modes offset modes c cs
    have hnext : next? ⟨source, offset, c :: cs, modes, []⟩ =
        some (s.token, ⟨source, s.stop, s.rest, s.after, s.queued⟩) := rfl
    have hopened : s.openedAt opened =
        if modes.depth < s.after.depth then s.token.start else opened := by
      rw [Step.openedAt, hmodes]
      rfl
    -- the tokens from the queue are read in the modes after the step
    have hqueued : s.queued.filterMap (Diagnostic.ofToken? s.after.top (s.openedAt opened)) =
        s.queued.filterMap (Diagnostic.ofToken? modes.top (s.openedAt opened)) := by
      rcases queued_eq_nil_or_after_eq offset modes c cs with hnil | hafter
      · rw [hnil]
        rfl
      · rw [hafter]
    have hwidth : s.stop + Text.width s.rest = offset + Text.width (c :: cs) :=
      stop_add_width_rest offset modes c cs
    have hqueue := faults_queue ⟨source, s.stop, s.rest, s.after, []⟩ (s.openedAt opened) s.queued
    rw [faults_of_next? hnext hopened]
    rw [hqueue, hqueued, ih, hwidth, Diagnostic.ofSteps, Step.tokens, filterMap_cons_eq_append,
      Step.mode, hmodes]
    simp only [List.append_assoc, List.foldl_cons, endModes_cons]

/--
The faults of a source are those of its invalid tokens, one for each and in their order, and at
the end one for a region that is still open. Each names the token, what is wrong with it and the
place at which the region around it was opened.
-/
theorem diagnose_explains (source : List Char) :
    (∃ faults last, diagnose source = faults ++ last ∧
      List.Forall₂ (Explains source) ((tokens {} source).filter (·.category.isFault)) faults ∧
      EndFault source last) ∧
    (diagnose source = [] ↔
      (∀ t ∈ tokens {} source, t.category.isFault = false) ∧ finalModes {} source = {}) ∧
    diagnose source = (Stream.start {} source).faults 0 := by
  obtain ⟨last, hdiagnose, hlast⟩ := exists_endFault source
  have hfaults := forall₂_ofSteps (List.nil_append (scan {} source)).symm
  refine ⟨⟨_, last, hdiagnose, hfaults, hlast⟩, ?_, ?_⟩
  · have hnil : Diagnostic.ofSteps 0 (scan {} source) = [] ↔
        (tokens {} source).filter (·.category.isFault) = [] := by
      rw [← List.length_eq_zero_iff, ← List.length_eq_zero_iff]
      exact Eq.congr_left hfaults.length_eq.symm
    rw [hdiagnose, List.append_eq_nil_iff, hlast.eq_nil_iff, hnil, List.filter_eq_nil_iff]
    simp only [Bool.not_eq_true]
  · rw [Stream.start, Stream.faults_eq_ofSteps, Nat.zero_add]
    rfl

end Tokenizer
