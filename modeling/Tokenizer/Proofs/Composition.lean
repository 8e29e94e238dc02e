import Tokenizer.Proofs.Diagnosis
import Tokenizer.Proofs.Relocation
import Tokenizer.Proofs.Seam

/-!
Composition. Pieces of source with white space between them are read as if each stood alone, each
but the last ending in code and at a seam. The white space itself may be read in fewer steps than
before, so the steps are compared without those that read white space.
-/
namespace Tokenizer

open CharClass

/-! ### Places further on -/

def Span.shift (n : Nat) (s : Span) : Span := ⟨n + s.start, n + s.stop⟩

def Context.shift (n : Nat) : Context → Context
  | insideString start => .insideString (n + start)
  | insideComment start => .insideComment (n + start)
  | insideDocComment start => .insideDocComment (n + start)
  | topLevel => .topLevel
  | insideChar => .insideChar

def Suggestion.shift (n : Nat) (s : Suggestion) : Suggestion :=
  { s with edit? := s.edit?.map fun e => { e with span := e.span.shift n } }

/-! ### Steps that read white space -/

def Step.isBlank (s : Step) : Bool := s.mode == .root && s.text.all isSpace

def solidSteps (start : Nat) (modes : ModeStack) (cs : List Char) : List Step :=
  (steps start modes cs).filter (!·.isBlank)

theorem isBlank_iff {start : Nat} {modes : ModeStack} {c : Char} {cs : List Char} :
    (step start modes c cs).isBlank = true ↔ modes.top = .root ∧ isSpace c = true := by
  rw [Step.isBlank, Step.mode, step_modes, Bool.and_eq_true, beq_iff_eq]
  refine and_congr_right fun htop => ?_
  constructor
  · intro hall
    obtain ⟨d, ds, htext⟩ := List.exists_cons_of_ne_nil (step_text_ne_nil start modes c cs)
    have hsplit := step_split start modes c cs
    rw [htext] at hall hsplit
    obtain ⟨rfl, -⟩ := List.cons.inj hsplit
    simp only [List.all_cons, Bool.and_eq_true] at hall
    exact hall.1
  · intro hc
    have hfiller : modes.top.isFiller c = true := by rw [htop]; exact hc
    rw [step_of_isFiller start modes hfiller, htop]
    exact List.all_takeWhile

/-- A step over white space does nothing else. -/
theorem step_of_isBlank {start : Nat} {modes : ModeStack} {c : Char} {cs : List Char}
    (h : (step start modes c cs).isBlank = true) :
    step start modes c cs = ⟨start, modes, some Mode.root.fillerRule, (c :: cs).takeWhile isSpace,
      (c :: cs).dropWhile isSpace⟩ := by
  obtain ⟨htop, hc⟩ := isBlank_iff.1 h
  have hfiller : modes.top.isFiller c = true := by rw [htop]; exact hc
  rw [step_of_isFiller start modes hfiller, htop]
  rfl

theorem tokens_of_isBlank {start : Nat} {modes : ModeStack} {c : Char} {cs : List Char}
    (h : (step start modes c cs).isBlank = true) :
    (step start modes c cs).tokens =
      [⟨.whitespace, start, (step start modes c cs).text⟩] := by
  rw [step_of_isBlank h]
  rfl

theorem solidSteps_cons (start : Nat) (modes : ModeStack) (c : Char) (cs : List Char) :
    solidSteps start modes (c :: cs) =
      (if (step start modes c cs).isBlank then [] else [step start modes c cs]) ++
        solidSteps (step start modes c cs).stop (step start modes c cs).after
          (step start modes c cs).rest := by
  rw [solidSteps, steps_cons, List.filter_cons]
  cases (step start modes c cs).isBlank <;> rfl

theorem solidSteps_dropWhile (start : Nat) (cs : List Char) :
    solidSteps start {} cs =
      solidSteps (start + Text.width (cs.takeWhile isSpace)) {} (cs.dropWhile isSpace) := by
  cases cs with
  | nil => rfl
  | cons c cs =>
    cases hc : isSpace c with
    | false => simp [hc]
    | true =>
      have hblank : (step start {} c cs).isBlank = true := isBlank_iff.2 ⟨rfl, hc⟩
      rw [solidSteps_cons, if_pos hblank, step_of_isBlank hblank]
      rfl

theorem solidSteps_append_of_space (start : Nat) {ws : List Char}
    (hws : ∀ c ∈ ws, isSpace c = true) (cs : List Char) :
    solidSteps start {} (ws ++ cs) = solidSteps (start + Text.width ws) {} cs := by
  rw [solidSteps_dropWhile start (ws ++ cs), solidSteps_dropWhile (start + Text.width ws) cs,
    List.takeWhile_append_of_pos hws, List.dropWhile_append_of_pos hws, Text.width_append,
    Nat.add_assoc]

theorem finalModes_append_of_space {ws : List Char} (hws : ∀ c ∈ ws, isSpace c = true)
    (cs : List Char) : finalModes {} (ws ++ cs) = finalModes {} cs := by
  have hdrop : (ws ++ cs).dropWhile isSpace = cs.dropWhile isSpace :=
    List.dropWhile_append_of_pos hws
  rw [finalModes_filler {} (ws ++ cs), finalModes_filler {} cs]
  exact congrArg _ hdrop

/-! ### Across a seam -/

section
variable {w : List Char} (hne : w ≠ []) (hw : ∀ c ∈ w, isSpace c = true)
include hne hw

theorem step_append_of_seam {start : Nat} {modes : ModeStack} {c : Char} {cs : List Char}
    (hseam : w.head?.any isLineBreak = true ∨ Tidy start modes (c :: cs))
    (hfiller : ¬∀ x ∈ c :: cs, modes.top.isFiller x = true) (ys : List Char) :
    step start modes c (cs ++ (w ++ ys)) = (step start modes c cs).extend (w ++ ys) := by
  obtain ⟨b, w, rfl⟩ := List.exists_cons_of_ne_nil hne
  by_cases hbreak : isLineBreak b = true
  · exact step_append_of_isLineBreak start modes hbreak hfiller _
  · have htidy : Tidy start modes (c :: cs) := hseam.resolve_left hbreak
    have hspace : isHorizontalSpace b = true := by
      have hb := hw b List.mem_cons_self
      simpa [isSpace, hbreak] using hb
    exact htidy.step_append hspace _ hfiller

/-- The text before a seam is read as if it ended there, and the text after it from code. -/
theorem solidSteps_seam {start : Nat} {modes : ModeStack} {xs : List Char}
    (hfinal : finalModes modes xs = {})
    (hseam : w.head?.any isLineBreak = true ∨ Tidy start modes xs) (ys : List Char) :
    solidSteps start modes (xs ++ (w ++ ys)) =
        (solidSteps start modes xs).map (·.extend (w ++ ys)) ++
          solidSteps (start + Text.width xs + Text.width w) {} ys ∧
      finalModes modes (xs ++ (w ++ ys)) = finalModes {} ys := by
  induction start, modes, xs using steps.induct with
  | case1 start modes =>
    obtain rfl : modes = {} := by simpa using hfinal
    refine ⟨?_, finalModes_append_of_space hw ys⟩
    have hnil : solidSteps start {} [] = [] := by simp [solidSteps]
    rw [hnil]
    exact solidSteps_append_of_space start hw ys
  | case2 start modes c cs s ih =>
    by_cases hfiller : ∀ x ∈ c :: cs, modes.top.isFiller x = true
    · -- nothing but white space is left
      obtain rfl : modes = {} := by rwa [finalModes_of_filler hfiller] at hfinal
      have hspace : ∀ x ∈ c :: cs, isSpace x = true := hfiller
      have hall : ∀ x ∈ c :: cs ++ w, isSpace x = true := List.forall_mem_append.2 ⟨hspace, hw⟩
      have hnil : solidSteps start {} (c :: cs) = [] := by
        have happend := solidSteps_append_of_space start hspace []
        rw [List.append_nil] at happend
        rw [happend]
        simp [solidSteps]
      rw [← List.append_assoc, hnil]
      refine ⟨?_, finalModes_append_of_space hall ys⟩
      rw [solidSteps_append_of_space start hall, Text.width_append, Nat.add_assoc]
      rfl
    · have hstep := step_append_of_seam hne hw hseam hfiller ys
      have hwidth : s.stop + Text.width s.rest = start + Text.width (c :: cs) :=
        stop_add_width_rest start modes c cs
      rw [finalModes_cons start] at hfinal
      obtain ⟨hsolid, hmodes⟩ := ih hfinal (hseam.imp_right Tidy.rest)
      rw [List.cons_append]
      constructor
      · rw [hwidth] at hsolid
        rw [solidSteps_cons, hstep, solidSteps_cons start modes c cs, List.map_append,
          List.append_assoc]
        change (if s.isBlank then [] else [s.extend (w ++ ys)]) ++
          solidSteps s.stop s.after (s.rest ++ (w ++ ys)) = _
        rw [hsolid]
        cases s.isBlank <;> rfl
      · rw [finalModes_cons start, hstep]
        exact hmodes

end

/-! ### What is observed of the steps -/

theorem significant_append (xs ys : List Token) :
    significant (xs ++ ys) = significant xs ++ significant ys :=
  List.filter_append xs ys

theorem significant_map_shift (n : Nat) (ts : List Token) :
    significant (ts.map (Token.shift n)) = (significant ts).map (Token.shift n) :=
  List.filter_map

/-- White space has no significant tokens. -/
theorem significant_steps (start : Nat) (modes : ModeStack) (cs : List Char) :
    significant ((steps start modes cs).flatMap Step.tokens) =
      significant ((solidSteps start modes cs).flatMap Step.tokens) := by
  fun_induction steps start modes cs with
  | case1 => simp [solidSteps]
  | case2 start modes c cs s ih =>
    rw [solidSteps_cons, List.flatMap_cons, List.flatMap_append, significant_append,
      significant_append, ih]
    congr 1
    cases hblank : s.isBlank with
    | false => simp [s]
    | true =>
      have htokens : s.tokens = _ := tokens_of_isBlank hblank
      simp [htokens, significant, Category.isTrivia]

/-- White space has no faults and opens nothing. -/
theorem ofSteps_steps (opened start : Nat) (modes : ModeStack) (cs : List Char) :
    Diagnostic.ofSteps opened (steps start modes cs) =
        Diagnostic.ofSteps opened (solidSteps start modes cs) ∧
      openedFrom opened (steps start modes cs) =
        openedFrom opened (solidSteps start modes cs) := by
  fun_induction steps start modes cs generalizing opened with
  | case1 => simp [solidSteps]
  | case2 start modes c cs s ih =>
    obtain ⟨hfaults, hopened⟩ := ih (s.openedAt opened)
    rw [solidSteps_cons]
    change s.tokens.filterMap _ ++ Diagnostic.ofSteps (s.openedAt opened) _ = _ ∧
      openedFrom (s.openedAt opened) _ = _
    rw [hfaults, hopened]
    cases hblank : s.isBlank with
    | false => exact ⟨rfl, rfl⟩
    | true =>
      have hat : s.openedAt opened = opened := by
        rw [show s = _ from step_of_isBlank hblank]
        exact if_neg (Nat.lt_irrefl _)
      have htokens : s.tokens = _ := tokens_of_isBlank hblank
      rw [htokens, hat]
      exact ⟨rfl, rfl⟩

/-! ### Faults at other offsets -/

namespace Diagnostic

def shift (n : Nat) (d : Diagnostic) : Diagnostic where
  span := d.span.shift n
  cause := d.cause
  context := d.context.shift n
  suggestions := d.suggestions.map (Suggestion.shift n)

theorem relocate_add (n : Nat) : relocate (n + ·) = shift n := by
  funext ⟨span, cause, context, suggestions⟩
  cases context <;> rfl

end Diagnostic

/-- Where a scan goes on in code, its faults are those of the rest as a source of its own. -/
theorem faultsFrom_shift (opened n : Nat) (cs : List Char) :
    faultsFrom opened n {} cs = (diagnose cs).map (Diagnostic.shift n) := by
  have hmove : faultsFrom (n + 0) (n + 0) {} cs = _ :=
    faultsFrom_relocate (f := (n + ·)) (fun _ _ => rfl) 0 {} cs
  rw [faultsFrom_code (n + 0) opened, diagnose_eq_faultsFrom]
  simpa only [Nat.add_zero, Diagnostic.relocate_add] using hmove

/-! ### Pieces of source -/

/-- `a` and `b` are read across `w` as if each of them stood alone. -/
structure Composes (a w b : List Char) : Prop where
  tokens_eq : significant (tokens {} (a ++ (w ++ b))) = significant (tokens {} a) ++
    (significant (tokens {} b)).map (Token.shift (Text.width a + Text.width w))
  modes_eq : finalModes {} (a ++ (w ++ b)) = finalModes {} b
  faults_eq : diagnose (a ++ (w ++ b)) =
    diagnose a ++ (diagnose b).map (Diagnostic.shift (Text.width a + Text.width w))

theorem diagnose_eq (source : List Char) :
    diagnose source = Diagnostic.ofSteps 0 (scan {} source) ++
      ((finalModes {} source).regions.head?.map (Diagnostic.unclosed
        ⟨openedFrom 0 (scan {} source), Text.width source⟩)).toList := rfl

/-- The faults on both sides of a seam. -/
theorem faults_of_seam {a w b : List Char} (hroot : finalModes {} a = {})
    (hsolid : solidSteps 0 {} (a ++ (w ++ b)) =
      (solidSteps 0 {} a).map (·.extend (w ++ b)) ++
        solidSteps (Text.width a + Text.width w) {} b)
    (hmodes : finalModes {} (a ++ (w ++ b)) = finalModes {} b) :
    diagnose (a ++ (w ++ b)) =
      diagnose a ++ (diagnose b).map (Diagnostic.shift (Text.width a + Text.width w)) := by
  have hwidth : Text.width (a ++ (w ++ b)) = Text.width a + Text.width w + Text.width b := by
    simp [Nat.add_assoc]
  obtain ⟨hfaults, hopened⟩ := ofSteps_steps 0 0 {} (a ++ (w ++ b))
  rw [hsolid, Diagnostic.ofSteps_append, Diagnostic.ofSteps_map_extend] at hfaults
  rw [hsolid, openedFrom_append] at hopened
  generalize openedFrom 0 ((solidSteps 0 {} a).map (·.extend (w ++ b))) = before at hfaults hopened
  generalize Text.width a + Text.width w = n at hfaults hopened hwidth ⊢
  obtain ⟨hfaultsA, -⟩ := ofSteps_steps 0 0 {} a
  obtain ⟨hfaultsB, hopenedB⟩ := ofSteps_steps before n {} b
  have hdiagnose : diagnose a = Diagnostic.ofSteps 0 (steps 0 {} a) := by
    rw [diagnose_eq, hroot]
    exact List.append_nil _
  rw [← hfaultsA, ← hfaultsB] at hfaults
  rw [hdiagnose, ← faultsFrom_shift before, faultsFrom, diagnose_eq, scan, hfaults, hmodes, hwidth,
    hopened, ← hopenedB, List.append_assoc]

section
variable {a w : List Char} (hroot : finalModes {} a = {}) (hne : w ≠ [])
  (hw : ∀ c ∈ w, isSpace c = true)
include hroot hne hw

theorem composes_of_seam (hseam : w.head?.any isLineBreak = true ∨ Tidy 0 {} a) (b : List Char) :
    Composes a w b := by
  obtain ⟨hsolid, hmodes⟩ := solidSteps_seam hne hw hroot hseam b
  rw [Nat.zero_add] at hsolid
  refine ⟨?_, hmodes, ?_⟩
  · rw [tokens, scan, significant_steps, hsolid, List.flatMap_append, significant_append,
      List.flatMap_map, ← significant_steps, flatMap_tokens_steps, significant_map_shift]
    simp only [Step.tokens_extend]
    rw [← significant_steps]
    rfl
  · exact faults_of_seam hroot hsolid hmodes

end

/-- A source without faults has no invalid tokens and ends in code. -/
theorem faultless_of_diagnose {source : List Char} (h : diagnose source = []) :
    (∀ t ∈ tokens {} source, t.category.isFault = false) ∧ finalModes {} source = {} := by
  obtain ⟨last, hdiagnose, hlast⟩ := exists_endFault source
  have hfaults := forall₂_ofSteps (List.nil_append (scan {} source)).symm
  obtain ⟨hnone, hend⟩ := List.append_eq_nil_iff.1 (hdiagnose.symm.trans h)
  rw [openedAfter, List.foldl_nil, hnone, List.forall₂_nil_right_iff] at hfaults
  refine ⟨?_, hlast.eq_nil_iff.1 hend⟩
  intro t ht
  simpa using List.filter_eq_nil_iff.1 hfaults t ht

/-- The source has no faults and does not end in a line comment. -/
structure Clean (source : List Char) : Prop where
  faultless : diagnose source = []
  no_comment : ∀ t ∈ (tokens {} source).getLast?, t.category ≠ .lineComment

theorem Clean.finalModes_eq {source : List Char} (h : Clean source) :
    finalModes {} source = {} := (faultless_of_diagnose h.faultless).2

theorem Clean.tidy {source : List Char} (h : Clean source) : Tidy 0 {} source := by
  have hfaultless := (faultless_of_diagnose h.faultless).1
  exact ⟨hfaultless, h.no_comment, getLast?_of_faultless h.finalModes_eq hfaultless h.no_comment⟩

inductive CleanPieces : List Char → Prop
  | one {a : List Char} : Clean a → CleanPieces a
  | join {a w b : List Char} : Clean a → w ≠ [] → (∀ c ∈ w, isSpace c = true) → CleanPieces b →
      CleanPieces (a ++ (w ++ b))

/--
A piece that ends in code and what comes after white space are read as if each stood alone, if the
white space starts with a line break or the piece is clean. So any number of clean pieces with
white space between them make a source without faults that ends in code.
-/
theorem pieces_compose :
    (∀ a w b : List Char, finalModes {} a = {} → w ≠ [] → (∀ c ∈ w, isSpace c = true) →
      w.head?.any isLineBreak = true ∨ Clean a → Composes a w b) ∧
    ∀ source, CleanPieces source → diagnose source = [] ∧ finalModes {} source = {} := by
  constructor
  · intro a w b hroot hne hw hseam
    exact composes_of_seam hroot hne hw (hseam.imp_right Clean.tidy) b
  · intro source h
    induction h with
    | one ha => exact ⟨ha.faultless, ha.finalModes_eq⟩
    | @join a w b ha hne hw _ ih =>
      have hcompose := composes_of_seam ha.finalModes_eq hne hw (.inr ha.tidy) b
      rw [hcompose.faults_eq, hcompose.modes_eq, ha.faultless, ih.1]
      exact ⟨rfl, ih.2⟩

/-- A clean word and an unclosed string after a space. -/
theorem pieces_compose_word_string : Composes ['x'] [' '] ['"', 'y'] := by
  have hclean : Clean ['x'] := ⟨by decide +kernel, by decide +kernel⟩
  have hspace : ∀ c ∈ [' '], isSpace c = true := by simp [isSpace, isHorizontalSpace]
  exact pieces_compose.1 ['x'] [' '] ['"', 'y'] hclean.finalModes_eq (by simp) hspace (.inr hclean)

end Tokenizer
