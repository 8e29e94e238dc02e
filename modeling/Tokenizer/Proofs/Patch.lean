import Tokenizer.Proofs.Layout

/-!
Patches: tokens known by their category and their span alone, so that bytes can be cut out of
them. Cutting out bytes keeps the category of every other byte.
-/
namespace Tokenizer

structure Patch where
  category : Category
  span : Span
deriving DecidableEq, Repr

def Token.patch (t : Token) : Patch := ⟨t.category, t.span⟩

namespace Patch

def covers (n : Nat) (p : Patch) : Bool := decide (p.span.start ≤ n ∧ n < p.span.stop)

/-- The patch is not empty, and has no byte in common with `gap`. -/
def Outside (gap : Span) (p : Patch) : Prop :=
  p.span.start < p.span.stop ∧ (p.span.stop ≤ gap.start ∨ gap.stop ≤ p.span.start)

/-- The patch from byte `start` to byte `stop`, unless it is empty. -/
def stretch (category : Category) (start stop : Nat) : List Patch :=
  if start < stop then [⟨category, start, stop⟩] else []

/-- The parts of a patch before and after `gap` that are not empty. -/
def cutOut (gap : Span) (p : Patch) : List Patch :=
  stretch p.category p.span.start (min p.span.stop gap.start) ++
    stretch p.category (max p.span.start gap.stop) p.span.stop

/-- What is left of patches when the bytes of all the gaps are cut out. -/
def cutAll (gaps : List Span) (ps : List Patch) : List Patch :=
  gaps.foldl (fun ps gap => ps.flatMap (cutOut gap)) ps

/-- The category of a byte, by the first patch that covers it. -/
def categoryAt (n : Nat) (ps : List Patch) : Option Category :=
  (ps.find? (covers n)).map category

theorem stretch_of_lt (category : Category) {start stop : Nat} (h : start < stop) :
    stretch category start stop = [⟨category, start, stop⟩] := if_pos h

theorem stretch_of_le (category : Category) {start stop : Nat} (h : stop ≤ start) :
    stretch category start stop = [] := if_neg (by omega)

/-- A gap inside a stretch leaves the stretch in front of it and the one after it. -/
theorem flatMap_cutOut_stretch (category : Category) {start stop : Nat} {gap : Span}
    (hstart : start ≤ gap.start) (hgap : gap.start < gap.stop) (hstop : gap.stop ≤ stop) :
    (stretch category start stop).flatMap (cutOut gap) =
      stretch category start gap.start ++ stretch category gap.stop stop := by
  have hmin : min stop gap.start = gap.start := by omega
  have hmax : max start gap.stop = gap.stop := by omega
  rw [stretch_of_lt category (by omega), List.flatMap_singleton, cutOut, hmin, hmax]

theorem cutOut_of_outside {gap : Span} (hgap : gap.start ≤ gap.stop) {p : Patch}
    (h : p.Outside gap) : p.cutOut gap = [p] := by
  obtain ⟨category, start, stop⟩ := p
  obtain ⟨hne, hle | hle⟩ : start < stop ∧ (stop ≤ gap.start ∨ gap.stop ≤ start) := h
  · have hmin : min stop gap.start = stop := by omega
    rw [cutOut, hmin, stretch_of_lt category hne, stretch_of_le category (by simp only; omega)]
    rfl
  · have hmax : max start gap.stop = start := by omega
    rw [cutOut, hmax, stretch_of_lt category hne, stretch_of_le category (by simp only; omega)]
    rfl

theorem flatMap_cutOut_of_outside {gap : Span} (hgap : gap.start ≤ gap.stop) {ps : List Patch}
    (h : ∀ p ∈ ps, p.Outside gap) : ps.flatMap (cutOut gap) = ps := by
  induction ps with
  | nil => rfl
  | cons p ps ih =>
    obtain ⟨hp, hps⟩ := List.forall_mem_cons.1 h
    rw [List.flatMap_cons, cutOut_of_outside hgap hp, ih hps, List.singleton_append]

theorem cutAll_append (gaps : List Span) (ps qs : List Patch) :
    cutAll gaps (ps ++ qs) = cutAll gaps ps ++ cutAll gaps qs := by
  induction gaps generalizing ps qs with
  | nil => rfl
  | cons gap gaps ih =>
    simp only [cutAll, List.foldl_cons, List.flatMap_append] at ih ⊢
    exact ih _ _

theorem cutAll_of_outside {gaps : List Span} {ps : List Patch}
    (h : ∀ gap ∈ gaps, gap.start ≤ gap.stop ∧ ∀ p ∈ ps, p.Outside gap) : cutAll gaps ps = ps := by
  induction gaps with
  | nil => rfl
  | cons gap gaps ih =>
    obtain ⟨⟨hgap, hps⟩, hgaps⟩ := List.forall_mem_cons.1 h
    rw [cutAll, List.foldl_cons, flatMap_cutOut_of_outside hgap hps]
    exact ih hgaps

/-! ### Categories of bytes -/

theorem categoryAt_append (n : Nat) (ps qs : List Patch) :
    categoryAt n (ps ++ qs) = (categoryAt n ps).or (categoryAt n qs) := by
  simp only [categoryAt, List.find?_append]
  cases ps.find? (covers n) <;> rfl

theorem categoryAt_stretch (n : Nat) (category : Category) (start stop : Nat) :
    categoryAt n (stretch category start stop) =
      if start ≤ n ∧ n < stop then some category else none := by
  by_cases h : start < stop
  · rw [stretch_of_lt category h]
    by_cases hn : start ≤ n ∧ n < stop <;> simp [categoryAt, covers, hn]
  · rw [stretch_of_le category (by omega), if_neg (by omega)]
    rfl

theorem categoryAt_cutOut {n : Nat} {gap : Span} (h : ¬(gap.start ≤ n ∧ n < gap.stop))
    (p : Patch) : categoryAt n (p.cutOut gap) = categoryAt n [p] := by
  obtain ⟨category, start, stop⟩ := p
  rw [cutOut, categoryAt_append, categoryAt_stretch, categoryAt_stretch]
  simp only
  by_cases hn : start ≤ n ∧ n < stop
  · have hself : categoryAt n [⟨category, start, stop⟩] = some category := by
      simp [categoryAt, covers, hn]
    by_cases hlt : n < gap.start
    · rw [if_pos (by omega), hself]
      rfl
    · rw [if_neg (by omega), if_pos (by omega), hself]
      rfl
  · have hself : categoryAt n [⟨category, start, stop⟩] = none := by
      simp [categoryAt, covers, hn]
    rw [if_neg (by omega), if_neg (by omega), hself]
    rfl

/-- A byte outside the gaps keeps its category when the gaps are cut out. -/
theorem categoryAt_cutAll {n : Nat} {gaps : List Span}
    (h : ∀ gap ∈ gaps, ¬(gap.start ≤ n ∧ n < gap.stop)) (ps : List Patch) :
    categoryAt n (cutAll gaps ps) = categoryAt n ps := by
  induction gaps generalizing ps with
  | nil => rfl
  | cons gap gaps ih =>
    obtain ⟨hgap, hgaps⟩ := List.forall_mem_cons.1 h
    have hcut : categoryAt n (ps.flatMap (cutOut gap)) = categoryAt n ps := by
      clear ih
      induction ps with
      | nil => rfl
      | cons p ps ih =>
        rw [List.flatMap_cons, categoryAt_append, categoryAt_cutOut hgap, ih, ← categoryAt_append]
        rfl
    rw [← hcut]
    exact ih hgaps _

end Patch
end Tokenizer
