import Mathlib.Data.List.Basic
import Tokenizer.Proofs.Fault
import Tokenizer.Proofs.LineRestart

/-!
Faults at other offsets. Steps that move take their faults with them, each of its offsets moved
with the place that it names. A scan that goes on in code does not depend on where a region was
opened before, so its faults can be told without the steps that came first.
-/
namespace Tokenizer

/-- The offset that is kept beside a scan, after the steps `taken`; before them it was `opened`. -/
def openedFrom (opened : Nat) (taken : List Step) : Nat :=
  taken.foldl (fun opened s => s.openedAt opened) opened

theorem openedFrom_append (opened : Nat) (xs ys : List Step) :
    openedFrom opened (xs ++ ys) = openedFrom (openedFrom opened xs) ys :=
  List.foldl_append

theorem Diagnostic.ofSteps_append (opened : Nat) (xs ys : List Step) :
    ofSteps opened (xs ++ ys) = ofSteps opened xs ++ ofSteps (openedFrom opened xs) ys := by
  induction xs generalizing opened with
  | nil => rfl
  | cons s xs ih =>
    simp only [List.cons_append, ofSteps, ih, List.append_assoc]
    rfl

theorem Diagnostic.ofSteps_map_extend (opened : Nat) (taken : List Step) (cs : List Char) :
    ofSteps opened (taken.map (·.extend cs)) = ofSteps opened taken := by
  induction taken generalizing opened with
  | nil => rfl
  | cons s taken ih =>
    rw [List.map_cons, ofSteps, ofSteps]
    exact congrArg _ (ih _)

theorem openedFrom_map_extend (opened : Nat) (taken : List Step) (cs : List Char) :
    openedFrom opened (taken.map (·.extend cs)) = openedFrom opened taken :=
  List.foldl_map

theorem endModes_map_extend (modes : ModeStack) (taken : List Step) (zs : List Char) :
    endModes modes (taken.map (·.extend zs)) = endModes modes taken := by
  rw [endModes, endModes, List.foldl_map]
  rfl

/-- The place of the open region stays the same while no region is opened. -/
theorem openedFrom_of_depth_le {taken : List Step}
    (h : ∀ s ∈ taken, s.after.depth ≤ s.modes.depth) (opened : Nat) :
    openedFrom opened taken = opened := by
  induction taken with
  | nil => rfl
  | cons s taken ih =>
    obtain ⟨hs, htaken⟩ := List.forall_mem_cons.1 h
    change openedFrom (s.openedAt opened) taken = opened
    rw [Step.openedAt_of_le hs, ih htaken]

/-! ### Places that move -/

def Span.relocate (f : Nat → Nat) (s : Span) : Span := ⟨f s.start, f s.stop⟩

def Context.relocate (f : Nat → Nat) : Context → Context
  | insideString start => .insideString (f start)
  | insideComment start => .insideComment (f start)
  | insideDocComment start => .insideDocComment (f start)
  | topLevel => .topLevel
  | insideChar => .insideChar

def Suggestion.relocate (f : Nat → Nat) (s : Suggestion) : Suggestion :=
  { s with edit? := s.edit?.map fun e => { e with span := e.span.relocate f } }

namespace Diagnostic

/-- The same fault with every offset moved: those of its span, its context and its edits. -/
def relocate (f : Nat → Nat) (d : Diagnostic) : Diagnostic where
  span := d.span.relocate f
  cause := d.cause
  context := d.context.relocate f
  suggestions := d.suggestions.map (Suggestion.relocate f)

theorem unclosed_relocate (f : Nat → Nat) (span : Span) (region : Region) :
    (unclosed span region).relocate f = unclosed (span.relocate f) region := by
  cases region <;> rfl

variable {f : Nat → Nat} {n : Nat}

/-- A token that moves by `n` bytes takes its fault with it. -/
theorem ofToken?_relocate {t : Token} (ht : t.start < t.stop)
    (hf : ∀ x, t.start ≤ x → x ≤ t.stop → f x = n + x) (mode : Mode) (opened : Nat) :
    ofToken? mode (f opened) (t.shift n) = (ofToken? mode opened t).map (relocate f) := by
  have hspan : (t.shift n).span = t.span.relocate f := by
    have hstart := hf t.start (Nat.le_refl _) (by omega)
    have hstop := hf t.stop (by omega) (Nat.le_refl _)
    rw [Span.relocate, Token.span, Token.span, hstart, hstop, Token.stop, Token.stop, ← Nat.add_assoc]
    rfl
  have hnext : f (t.span.start + 1) = f t.span.start + 1 := by
    have hstart := hf t.start (Nat.le_refl _) (by omega)
    have hnext := hf (t.start + 1) (by omega) (by omega)
    change f (t.start + 1) = f t.start + 1
    omega
  have hcategory : (t.shift n).category = t.category := rfl
  have htext : (t.shift n).text = t.text := rfl
  unfold ofToken?
  rw [hspan, hcategory, htext]
  cases t.category with
  | invalid => by_cases hmode : mode = .inside .string <;> simp [hmode] <;> rfl
  | stringEscapeInvalid =>
    simp [invalidEscape, relocate, Suggestion.relocate, Suggestion.replacement, Suggestion.advice,
      Context.relocate, Span.relocate, hnext]
  | _ => rfl

/-- Steps that move by `n` bytes take their faults with them. -/
theorem ofSteps_relocate {taken : List Step} (h : ∀ s ∈ taken, s.text ≠ [] ∧
      ∀ x, s.start ≤ x → x ≤ s.stop → f x = n + x) (opened : Nat) :
    ofSteps (f opened) (taken.map (Step.shift n)) = (ofSteps opened taken).map (relocate f) ∧
      openedFrom (f opened) (taken.map (Step.shift n)) = f (openedFrom opened taken) := by
  induction taken generalizing opened with
  | nil => exact ⟨rfl, rfl⟩
  | cons s taken ih =>
    obtain ⟨⟨hne, hf⟩, htaken⟩ := List.forall_mem_cons.1 h
    have hlaid := s.laidFrom_tokens hne
    have hopened : (s.shift n).openedAt (f opened) = f (s.openedAt opened) := by
      have hstart := hf s.start (Nat.le_refl _) (Nat.le_add_right _ _)
      unfold Step.openedAt
      change (if s.modes.depth < s.after.depth then n + s.start else f opened) = _
      rw [← hstart]
      split <;> rfl
    have htokens : (s.shift n).tokens.filterMap (ofToken? s.mode (f (s.openedAt opened))) =
        (s.tokens.filterMap (ofToken? s.mode (s.openedAt opened))).map (relocate f) := by
      rw [Step.tokens_shift, List.filterMap_map, List.map_filterMap]
      apply List.filterMap_congr
      intro t ht
      have hwithin := hlaid.within t ht
      rw [s.flatMap_text_tokens] at hwithin
      apply ofToken?_relocate (hlaid.nonempty t ht)
      intro x hlo hhi
      exact hf x (by omega) (hhi.trans hwithin.2)
    obtain ⟨hfaults, hplace⟩ := ih htaken (s.openedAt opened)
    rw [List.map_cons, ofSteps, ofSteps, List.map_append, hopened]
    refine ⟨?_, ?_⟩
    · rw [hfaults, ← htokens]
      rfl
    · change openedFrom ((s.shift n).openedAt (f opened)) _ = _
      rw [hopened]
      exact hplace

/-- In code a fault does not depend on where a region was opened. -/
theorem ofToken?_root {t : Token} (hescape : t.category ≠ .stringEscapeInvalid)
    (hdoc : t.category ≠ .docCommentInvalid) (opened opened' : Nat) :
    ofToken? .root opened t = ofToken? .root opened' t := by
  unfold ofToken?
  split <;> simp_all

end Diagnostic

theorem filterMap_ofToken?_code (start : Nat) (c : Char) (cs : List Char) (opened opened' : Nat) :
    (step start {} c cs).tokens.filterMap (Diagnostic.ofToken? .root opened') =
      (step start {} c cs).tokens.filterMap (Diagnostic.ofToken? .root opened) := by
  apply List.filterMap_congr
  intro t ht
  have hown : ∀ region, t.category.faultMode? ≠ some (.inside region) := by
    intro region hmode
    have htop := top_of_faultMode? ht hmode
    simp [ModeStack.top] at htop
  refine Diagnostic.ofToken?_root ?_ ?_ _ _
  · intro hcategory
    exact hown .string (congrArg Category.faultMode? hcategory)
  · intro hcategory
    exact hown .docComment (congrArg Category.faultMode? hcategory)

/-- Where a region was opened matters only within one. -/
theorem openedAt_code (start : Nat) (c : Char) (cs : List Char) (opened opened' : Nat) :
    (step start {} c cs).after = {} ∨
      (step start {} c cs).openedAt opened' = (step start {} c cs).openedAt opened := by
  rcases @after_of_root {} rfl start c cs with hstay | ⟨region, hopens⟩
  · exact .inl hstay
  · exact .inr (by rw [hopens.openedAt, hopens.openedAt])

theorem ofSteps_code (start : Nat) (modes : ModeStack) (cs : List Char) :
    ∀ opened opened' : Nat, modes = {} ∨ opened' = opened →
    Diagnostic.ofSteps opened' (steps start modes cs) =
        Diagnostic.ofSteps opened (steps start modes cs) ∧
      (finalModes modes cs = {} ∨ openedFrom opened' (steps start modes cs) =
        openedFrom opened (steps start modes cs)) := by
  fun_induction steps start modes cs with
  | case1 start modes =>
    intro opened opened' h
    rw [finalModes_nil]
    exact ⟨rfl, h⟩
  | case2 start modes c cs s ih =>
    rintro opened opened' (rfl | rfl)
    · obtain ⟨hfaults, hopened⟩ := ih _ _ (openedAt_code start c cs opened opened')
      have hmode : s.mode = .root := congrArg ModeStack.top (step_modes start {} c cs)
      have htokens := filterMap_ofToken?_code start c cs (s.openedAt opened) (s.openedAt opened')
      rw [finalModes_cons start]
      refine ⟨?_, hopened⟩
      rw [Diagnostic.ofSteps, Diagnostic.ofSteps, hfaults, hmode, htokens]
    · exact ⟨rfl, .inr rfl⟩

/-! ### The faults of the rest of a source -/

/--
The faults of a source from byte `start` on, where the scan goes on in these modes and the
innermost region was opened at `opened`.
-/
def faultsFrom (opened start : Nat) (modes : ModeStack) (cs : List Char) : List Diagnostic :=
  Diagnostic.ofSteps opened (steps start modes cs) ++
    ((finalModes modes cs).regions.head?.map (Diagnostic.unclosed
      ⟨openedFrom opened (steps start modes cs), start + Text.width cs⟩)).toList

theorem diagnose_eq_faultsFrom (source : List Char) : diagnose source = faultsFrom 0 0 {} source := by
  rw [faultsFrom, Nat.zero_add]
  rfl

/-- The faults of the steps that come first, and then those of the rest. -/
theorem faultsFrom_of_steps {opened start n : Nat} {modes after : ModeStack} {cs rest : List Char}
    {before : List Step} (h : steps start modes cs = before ++ steps n after rest)
    (hafter : endModes modes before = after) (hwidth : start + Text.width cs = n + Text.width rest) :
    faultsFrom opened start modes cs =
      Diagnostic.ofSteps opened before ++ faultsFrom (openedFrom opened before) n after rest := by
  have hmodes : finalModes modes cs = finalModes after rest := by
    rw [← endModes_steps start, h, endModes_append, hafter, endModes_steps]
  rw [faultsFrom, faultsFrom, hmodes, hwidth, h, Diagnostic.ofSteps_append, openedFrom_append,
    List.append_assoc]

/-- A step that leaves the regions alone adds the faults of its tokens. -/
theorem faultsFrom_cons {start : Nat} {modes : ModeStack} {c : Char} {cs : List Char} {s : Step}
    (hs : step start modes c cs = s) (hafter : s.after = modes) (opened : Nat) :
    faultsFrom opened start modes (c :: cs) =
      s.tokens.filterMap (Diagnostic.ofToken? modes.top opened) ++
        faultsFrom opened s.stop modes s.rest := by
  have hmodes : s.modes = modes := by rw [← hs, step_modes]
  have hsteps : steps start modes (c :: cs) = [s] ++ steps s.stop modes s.rest := by
    rw [steps_cons, hs, hafter]
    rfl
  have hwidth : start + Text.width (c :: cs) = s.stop + Text.width s.rest := by
    rw [← hs, stop_add_width_rest]
  have hopened : s.openedAt opened = opened := by
    apply Step.openedAt_of_le
    rw [hafter, hmodes]
  have hplace : openedFrom opened [s] = opened := hopened
  rw [faultsFrom_of_steps hsteps hafter hwidth, hplace, Diagnostic.ofSteps, hopened, Step.mode,
    hmodes, Diagnostic.ofSteps, List.append_nil]

theorem Mode.isFault_fillerCategory (mode : Mode) : mode.fillerCategory.isFault = false := by
  cases mode with
  | inside region => cases region <;> rfl
  | _ => rfl

/-- Filler is no fault. -/
theorem faultsFrom_dropWhile (opened start : Nat) (modes : ModeStack) (cs : List Char) :
    faultsFrom opened start modes cs =
      faultsFrom opened (start + Text.width (cs.takeWhile modes.top.isFiller)) modes
        (cs.dropWhile modes.top.isFiller) := by
  cases cs with
  | nil => rfl
  | cons c cs =>
    cases h : modes.top.isFiller c with
    | false => simp [h]
    | true =>
      have hnone : Diagnostic.ofToken? modes.top opened ⟨modes.top.fillerCategory, start,
          (c :: cs).takeWhile modes.top.isFiller⟩ = none :=
        Diagnostic.ofToken?_eq_none modes.top.isFault_fillerCategory
      rw [faultsFrom_cons (step_of_isFiller start modes h cs) rfl, Step.tokens_of_emit rfl rfl]
      simp only [Mode.fillerRule, List.filterMap_cons_none hnone]
      rfl

/-- A scan that goes on within filler finds the same faults. -/
theorem faultsFrom_filler {modes : ModeStack} {c : Char} (h : modes.top.isFiller c = true)
    (opened start : Nat) (cs : List Char) :
    faultsFrom opened start modes (c :: cs) =
      faultsFrom opened (start + c.utf8Size) modes cs := by
  rw [faultsFrom_dropWhile, faultsFrom_dropWhile _ (start + c.utf8Size),
    List.takeWhile_cons_of_pos h, List.dropWhile_cons_of_pos h, Text.width_cons, Nat.add_assoc]

theorem faultsFrom_code (opened opened' start : Nat) (cs : List Char) :
    faultsFrom opened' start {} cs = faultsFrom opened start {} cs := by
  obtain ⟨hfaults, hopened⟩ := ofSteps_code start {} cs opened opened' (.inl rfl)
  rw [faultsFrom, faultsFrom, hfaults]
  rcases hopened with hcode | hopened
  · rw [hcode]
    rfl
  · rw [hopened]

theorem le_start_of_mem_steps {start : Nat} {modes : ModeStack} {cs : List Char} {s : Step}
    (h : s ∈ steps start modes cs) : s.text ≠ [] ∧ start ≤ s.start := by
  obtain ⟨before, after, hsteps⟩ := List.append_of_mem h
  obtain ⟨c, rest, -, rfl, -⟩ := steps_eq_append_cons hsteps
  rw [step_start]
  exact ⟨step_text_ne_nil _ _ c rest, Nat.le_add_right _ _⟩

/-- The faults of the rest of a source move with it, and past offsets move as they like. -/
theorem faultsFrom_relocate {f : Nat → Nat} {n start : Nat} (hf : ∀ x, start ≤ x → f x = n + x)
    (opened : Nat) (modes : ModeStack) (cs : List Char) :
    faultsFrom (f opened) (n + start) modes cs =
      (faultsFrom opened start modes cs).map (Diagnostic.relocate f) := by
  have hsteps : ∀ s ∈ steps start modes cs, s.text ≠ [] ∧
      ∀ x, s.start ≤ x → x ≤ s.stop → f x = n + x := by
    intro s hs
    obtain ⟨hne, hle⟩ := le_start_of_mem_steps hs
    exact ⟨hne, fun x hx _ => hf x (by omega)⟩
  obtain ⟨hfaults, hopened⟩ := Diagnostic.ofSteps_relocate hsteps opened
  rw [faultsFrom, faultsFrom, steps_add, hfaults, hopened, List.map_append, Nat.add_assoc,
    ← hf (start + Text.width cs) (Nat.le_add_right _ _)]
  cases (finalModes modes cs).regions.head? with
  | none => rfl
  | some region => simp [Diagnostic.unclosed_relocate, Span.relocate]

end Tokenizer
