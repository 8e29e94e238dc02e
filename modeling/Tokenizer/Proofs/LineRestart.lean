import Tokenizer.Line
import Tokenizer.Proofs.Filler
import Tokenizer.Proofs.Patch

/-!
Reading a document line by line. Each line starts in the modes in which the line before it ended;
the tokens are those of the whole document with the line breaks cut out.
-/
namespace Tokenizer

open CharClass

inductive LineBreak where
  | lineFeed
  | carriageReturn
  /-- A carriage return and a line feed. -/
  | both
deriving DecidableEq, Repr

def LineBreak.text : LineBreak → List Char
  | lineFeed => ['\n']
  | carriageReturn => ['\r']
  | both => ['\r', '\n']

/-- Lines with the breaks between them. A line may be any text. -/
structure Document where
  first : List Char
  /-- The lines after the first, each with the break before it. -/
  rest : List (LineBreak × List Char)
deriving DecidableEq, Repr

namespace Document

def lines (d : Document) : List (List Char) := d.first :: d.rest.map Prod.snd

def text (d : Document) : List Char := d.first ++ d.rest.flatMap fun p => p.1.text ++ p.2

/-- The offsets at which the lines start, when the first starts at byte `start`. -/
def lineStarts (start : Nat) (first : List Char) : List (LineBreak × List Char) → List Nat
  | [] => [start]
  | (brk, line) :: rest =>
    start :: lineStarts (start + Text.width first + Text.width brk.text) line rest

/-- The bytes of the line breaks, when the first line starts at byte `start`. -/
def breakSpans (start : Nat) (first : List Char) : List (LineBreak × List Char) → List Span
  | [] => []
  | (brk, line) :: rest =>
    let stop := start + Text.width first + Text.width brk.text
    ⟨start + Text.width first, stop⟩ :: breakSpans stop line rest

/-- The tokens of lines that were read in turn, placed in the document. -/
def place (starts : List Nat) (read : List Line) : List Patch :=
  (starts.zip read).flatMap fun p => p.2.tokens.map fun t => (t.shift p.1).patch

end Document

def patches (start : Nat) (modes : ModeStack) (cs : List Char) : List Patch :=
  ((steps start modes cs).flatMap Step.tokens).map Token.patch

@[simp] theorem patches_nil (start : Nat) (modes : ModeStack) : patches start modes [] = [] := by
  simp [patches]

theorem patches_cons (start : Nat) (modes : ModeStack) (c : Char) (cs : List Char) :
    patches start modes (c :: cs) =
      (step start modes c cs).tokens.map Token.patch ++
        patches (step start modes c cs).stop (step start modes c cs).after
          (step start modes c cs).rest := by
  simp [patches, steps_cons]

theorem finalModes_cons (start : Nat) (modes : ModeStack) (c : Char) (cs : List Char) :
    finalModes modes (c :: cs) =
      finalModes (step start modes c cs).after (step start modes c cs).rest := by
  rw [← endModes_steps start, steps_cons, endModes, List.foldl_cons, ← endModes_steps]
  rfl

theorem mem_patches {start : Nat} {modes : ModeStack} {cs : List Char} {p : Patch}
    (h : p ∈ patches start modes cs) :
    start ≤ p.span.start ∧ p.span.start < p.span.stop ∧
      p.span.stop ≤ start + Text.width cs := by
  obtain ⟨t, ht, rfl⟩ := List.mem_map.1 h
  have hlaid := laidFrom_steps start modes cs
  have hwithin := hlaid.within t ht
  rw [flatMap_text_tokens_steps] at hwithin
  exact ⟨hwithin.1, hlaid.nonempty t ht, hwithin.2⟩

/-- A scan reads the filler in front of it as one patch, and then goes on in the same modes. -/
theorem patches_filler (start : Nat) (modes : ModeStack) (cs : List Char) :
    patches start modes cs =
      Patch.stretch modes.top.fillerCategory start
          (start + Text.width (cs.takeWhile modes.top.isFiller)) ++
        patches (start + Text.width (cs.takeWhile modes.top.isFiller)) modes
          (cs.dropWhile modes.top.isFiller) := by
  cases cs with
  | nil => simp [Patch.stretch]
  | cons c cs =>
    cases h : modes.top.isFiller c with
    | false => simp [h, Patch.stretch]
    | true =>
      have hstep := step_of_isFiller start modes h cs
      have hrule : (step start modes c cs).rule? = some modes.top.fillerRule := by rw [hstep]
      have hne : (c :: cs).takeWhile modes.top.isFiller ≠ [] := by simp [h]
      have hpos := Text.width_pos hne
      rw [patches_cons, Step.tokens_of_emit hrule rfl, hstep,
        Patch.stretch_of_lt _ (by omega : start < start + Text.width _)]
      rfl

theorem finalModes_filler (modes : ModeStack) (cs : List Char) :
    finalModes modes cs = finalModes modes (cs.dropWhile modes.top.isFiller) := by
  cases cs with
  | nil => rfl
  | cons c cs =>
    cases h : modes.top.isFiller c with
    | false => simp [h]
    | true =>
      rw [finalModes_cons 0, step_of_isFiller 0 modes h cs]
      rfl

theorem finalModes_of_filler {modes : ModeStack} {xs : List Char}
    (h : ∀ x ∈ xs, modes.top.isFiller x = true) : finalModes modes xs = modes := by
  rw [finalModes_filler, List.dropWhile_eq_nil_iff.2 h]
  simp [finalModes, scan, endModes]

section
variable {bs : List Char} (hne : bs ≠ []) (hbs : ∀ b ∈ bs, isLineBreak b = true)
include hne hbs

theorem step_append_breaks (start : Nat) {modes : ModeStack} {c : Char} {cs : List Char}
    (h : ¬∀ x ∈ c :: cs, modes.top.isFiller x = true) (ys : List Char) :
    step start modes c (cs ++ (bs ++ ys)) = (step start modes c cs).extend (bs ++ ys) := by
  obtain ⟨b, bs', rfl⟩ := List.exists_cons_of_ne_nil hne
  exact step_append_of_isLineBreak start modes (hbs b List.mem_cons_self) h _

/-- Filler goes on over a line break: the break is cut out of the patch in which it lies. -/
theorem cutOut_patches_of_filler (start : Nat) {modes : ModeStack} {xs : List Char}
    (hxs : ∀ x ∈ xs, modes.top.isFiller x = true) (ys : List Char) :
    (patches start modes (xs ++ (bs ++ ys))).flatMap
        (Patch.cutOut ⟨start + Text.width xs, start + Text.width xs + Text.width bs⟩) =
      patches start modes xs ++
        patches (start + Text.width xs + Text.width bs) modes ys := by
  have hb : ∀ b ∈ bs, modes.top.isFiller b = true :=
    fun b hmem => modes.top.isFiller_of_isLineBreak (hbs b hmem)
  have hread : Text.width ((xs ++ (bs ++ ys)).takeWhile modes.top.isFiller) =
      Text.width xs + Text.width bs + Text.width (ys.takeWhile modes.top.isFiller) := by
    rw [List.takeWhile_append_of_pos hxs, List.takeWhile_append_of_pos hb, Text.width_append,
      Text.width_append, Nat.add_assoc]
  have hleft : (xs ++ (bs ++ ys)).dropWhile modes.top.isFiller =
      ys.dropWhile modes.top.isFiller := by
    rw [List.dropWhile_append_of_pos hxs, List.dropWhile_append_of_pos hb]
  have hself : xs.takeWhile modes.top.isFiller = xs := List.takeWhile_eq_self_iff.2 hxs
  have hnil : xs.dropWhile modes.top.isFiller = [] := List.dropWhile_eq_nil_iff.2 hxs
  have hpos := Text.width_pos hne
  rw [patches_filler start modes (xs ++ (bs ++ ys)), hread, hleft,
    patches_filler start modes xs, hself, hnil,
    patches_filler (start + Text.width xs + Text.width bs) modes ys, List.flatMap_append,
    Patch.flatMap_cutOut_stretch _ (by simp) (by simp only; omega) (by simp only; omega),
    Patch.flatMap_cutOut_of_outside]
  · simp [Nat.add_assoc]
  · exact Nat.le_add_right _ _
  · intro p hp
    obtain ⟨hstart, hlt, -⟩ := mem_patches hp
    exact ⟨hlt, Or.inr (by simp only; omega)⟩

/--
A text before a line break and the text after it are read as if they stood alone, the second from
the modes in which the first ends.
-/
theorem cutOut_patches (start : Nat) (modes : ModeStack) (xs ys : List Char) :
    (patches start modes (xs ++ (bs ++ ys))).flatMap
        (Patch.cutOut ⟨start + Text.width xs, start + Text.width xs + Text.width bs⟩) =
      patches start modes xs ++
        patches (start + Text.width xs + Text.width bs) (finalModes modes xs) ys := by
  induction start, modes, xs using steps.induct with
  | case1 start modes =>
    have hfiller : ∀ x ∈ ([] : List Char), modes.top.isFiller x = true := by simp
    rw [finalModes_of_filler hfiller]
    exact cutOut_patches_of_filler hne hbs start hfiller ys
  | case2 start modes c cs s ih =>
    by_cases hxs : ∀ x ∈ c :: cs, modes.top.isFiller x = true
    · rw [finalModes_of_filler hxs]
      exact cutOut_patches_of_filler hne hbs start hxs ys
    · -- the step ends before the break and does not see it, so the break is left to later steps
      have hstep := step_append_breaks hne hbs start hxs ys
      have hwidth : s.stop + Text.width s.rest = start + Text.width (c :: cs) :=
        stop_add_width_rest start modes c cs
      have hbefore : ∀ p ∈ s.tokens.map Token.patch, p.Outside
          ⟨start + Text.width (c :: cs), start + Text.width (c :: cs) + Text.width bs⟩ := by
        intro p hp
        obtain ⟨t, ht, rfl⟩ := List.mem_map.1 hp
        have hlaid := s.laidFrom_tokens (step_text_ne_nil start modes c cs)
        have hwithin := (hlaid.within t ht).2
        rw [s.flatMap_text_tokens] at hwithin
        refine ⟨hlaid.nonempty t ht, Or.inl ?_⟩
        simp only [Token.patch, Token.span, Step.stop] at hwidth ⊢
        omega
      rw [hwidth] at ih
      rw [List.cons_append, patches_cons, hstep, List.flatMap_append, Step.tokens_extend,
        Patch.flatMap_cutOut_of_outside (Nat.le_add_right _ _) hbefore, patches_cons,
        finalModes_cons start, List.append_assoc]
      exact congrArg (s.tokens.map Token.patch ++ ·) ih

theorem finalModes_append (modes : ModeStack) (xs ys : List Char) :
    finalModes modes (xs ++ (bs ++ ys)) = finalModes (finalModes modes xs) ys := by
  have hb : ∀ modes : ModeStack, ∀ b ∈ bs, modes.top.isFiller b = true :=
    fun modes b hmem => modes.top.isFiller_of_isLineBreak (hbs b hmem)
  induction (0 : Nat), modes, xs using steps.induct with
  | case1 start modes =>
    rw [List.nil_append, finalModes_filler modes (bs ++ ys),
      List.dropWhile_append_of_pos (hb modes), ← finalModes_filler]
    simp [finalModes, scan, endModes]
  | case2 start modes c cs s ih =>
    by_cases hxs : ∀ x ∈ c :: cs, modes.top.isFiller x = true
    · rw [finalModes_of_filler hxs, finalModes_filler modes (c :: cs ++ (bs ++ ys)),
        List.dropWhile_append_of_pos hxs, List.dropWhile_append_of_pos (hb modes),
        ← finalModes_filler]
    · have hstep := step_append_breaks hne hbs start hxs ys
      rw [List.cons_append, finalModes_cons start, hstep, finalModes_cons start modes c cs]
      exact ih

end

namespace LineBreak

theorem text_ne_nil (b : LineBreak) : b.text ≠ [] := by
  cases b <;> simp [text]

theorem isLineBreak_of_mem_text (b : LineBreak) : ∀ c ∈ b.text, isLineBreak c = true := by
  cases b <;> simp [text, isLineBreak]

end LineBreak

namespace Document

theorem text_cons (first line : List Char) (brk : LineBreak)
    (rest : List (LineBreak × List Char)) :
    text ⟨first, (brk, line) :: rest⟩ = first ++ (brk.text ++ text ⟨line, rest⟩) := by
  simp [text]

theorem mem_breakSpans {start : Nat} {first : List Char} {rest : List (LineBreak × List Char)}
    {gap : Span} (h : gap ∈ breakSpans start first rest) :
    start + Text.width first ≤ gap.start ∧ gap.start ≤ gap.stop := by
  induction rest generalizing start first with
  | nil => simp [breakSpans] at h
  | cons p rest ih =>
    rcases List.mem_cons.1 h with rfl | h
    · exact ⟨le_rfl, Nat.le_add_right _ _⟩
    · obtain ⟨hstart, hstop⟩ := ih h
      exact ⟨by omega, hstop⟩

/-- The tokens of the first line do not reach the breaks of the lines after it. -/
theorem cutAll_patches_first (start stop : Nat) (modes : ModeStack) (first line : List Char)
    (hstop : start + Text.width first ≤ stop) (rest : List (LineBreak × List Char)) :
    Patch.cutAll (breakSpans stop line rest) (patches start modes first) =
      patches start modes first := by
  apply Patch.cutAll_of_outside
  intro gap hgap
  obtain ⟨hle, hgap⟩ := mem_breakSpans hgap
  refine ⟨hgap, ?_⟩
  intro p hp
  obtain ⟨-, hlt, hend⟩ := mem_patches hp
  exact ⟨hlt, Or.inl (by omega)⟩

/-- Reading the lines in turn, wherever the document starts. -/
theorem place_readAll (start : Nat) (modes : ModeStack) (first : List Char)
    (rest : List (LineBreak × List Char)) :
    place (lineStarts start first rest) (Line.readAll modes (lines ⟨first, rest⟩)) =
      Patch.cutAll (breakSpans start first rest) (patches start modes (text ⟨first, rest⟩)) := by
  induction rest generalizing start modes first with
  | nil =>
    simp [place, lineStarts, lines, Line.readAll, Line.read, breakSpans, Patch.cutAll, text,
      patches, flatMap_tokens_steps]
  | cons p rest ih =>
    obtain ⟨brk, line⟩ := p
    let stop := start + Text.width first + Text.width brk.text
    have hread : Line.readAll modes (lines ⟨first, (brk, line) :: rest⟩) =
        Line.read modes first :: Line.readAll (finalModes modes first) (lines ⟨line, rest⟩) := rfl
    have hfirst : (Line.read modes first).tokens.map (fun t => (t.shift start).patch) =
        patches start modes first := by
      rw [patches, flatMap_tokens_steps, List.map_map]
      rfl
    have hcut := cutOut_patches brk.text_ne_nil brk.isLineBreak_of_mem_text start modes first
      (text ⟨line, rest⟩)
    have hrest := ih stop (finalModes modes first) line
    have hbefore := cutAll_patches_first start stop modes first line (by omega) rest
    calc place (lineStarts start first ((brk, line) :: rest))
          (Line.readAll modes (lines ⟨first, (brk, line) :: rest⟩))
        = patches start modes first ++ place (lineStarts stop line rest)
            (Line.readAll (finalModes modes first) (lines ⟨line, rest⟩)) := by
          rw [hread, ← hfirst]
          rfl
      _ = Patch.cutAll (breakSpans stop line rest) (patches start modes first ++
            patches stop (finalModes modes first) (text ⟨line, rest⟩)) := by
          rw [hrest, Patch.cutAll_append, hbefore]
      _ = Patch.cutAll (breakSpans start first ((brk, line) :: rest))
            (patches start modes (text ⟨first, (brk, line) :: rest⟩)) := by
          rw [text_cons, breakSpans, Patch.cutAll, Patch.cutAll, List.foldl_cons, hcut]

theorem getLast?_readAll (modes : ModeStack) (first : List Char)
    (rest : List (LineBreak × List Char)) :
    (Line.readAll modes (lines ⟨first, rest⟩)).getLast?.map Line.modes =
      some (finalModes modes (text ⟨first, rest⟩)) := by
  induction rest generalizing modes first with
  | nil => simp [lines, Line.readAll, Line.read, text]
  | cons p rest ih =>
    obtain ⟨brk, line⟩ := p
    have hread : Line.readAll modes (lines ⟨first, (brk, line) :: rest⟩) =
        Line.read modes first :: Line.readAll (finalModes modes first) (lines ⟨line, rest⟩) := rfl
    rw [text_cons, finalModes_append brk.text_ne_nil brk.isLineBreak_of_mem_text, ← ih, hread]
    rfl

end Document

/--
Reading a document line by line gives the tokens of the whole document with the bytes of the line
breaks cut out, and ends in the modes in which the whole document ends. So every byte outside the
line breaks has the same category both ways.
-/
theorem readAll_eq_cutAll_tokens (modes : ModeStack) (d : Document) :
    let starts := Document.lineStarts 0 d.first d.rest
    let gaps := Document.breakSpans 0 d.first d.rest
    let byLine := Document.place starts (Line.readAll modes d.lines)
    let whole := (tokens modes d.text).map Token.patch
    byLine = Patch.cutAll gaps whole ∧
      (Line.readAll modes d.lines).getLast?.map Line.modes = some (finalModes modes d.text) ∧
      ∀ n, (∀ gap ∈ gaps, ¬(gap.start ≤ n ∧ n < gap.stop)) →
        Patch.categoryAt n byLine = Patch.categoryAt n whole := by
  intro starts gaps byLine whole
  have hcut : byLine = Patch.cutAll gaps whole := Document.place_readAll 0 modes d.first d.rest
  refine ⟨hcut, Document.getLast?_readAll modes d.first d.rest, ?_⟩
  intro n hn
  rw [hcut]
  exact Patch.categoryAt_cutAll hn whole

end Tokenizer
