import Tokenizer.Proofs.CommentUnit

/-!
Where comments end. A block comment ends at the first `*/` of its text. A doc comment takes a `/*`
as a unit, so a `*/` whose star belongs to such a unit does not end it.
-/
namespace Tokenizer

/-- The offset at which the innermost of the open regions is left. -/
def leftAt? (modes : ModeStack) (t : List Char) : Option Nat :=
  ((scan modes t).find? fun s => decide (s.after ≠ modes)).map Step.stop

/-- A comment is left where the units up to its end stop. -/
theorem leftAt?_enter (nests : Bool) (below : ModeStack) (t : List Char) :
    leftAt? (below.enter (commentRegion nests)) t =
      if .close ∈ (commentUnits nests t).1 then
        some (Text.width ((commentUnits nests t).1.flatMap CommentUnit.chars))
      else none := by
  generalize hmodes : below.enter (commentRegion nests) = modes
  have htop : modes.top = .inside (commentRegion nests) := by
    rw [← hmodes]
    rfl
  obtain ⟨inner, uss, hall, hopen, hend⟩ := steps_comment 0 htop t
  have hinner : inner.find? (fun s => decide (s.after ≠ modes)) = none := by
    rw [List.find?_eq_none]
    intro s hs
    simp [after_eq_of_forall₂ hall hopen s hs]
  rcases hend with ⟨hunits, hsteps⟩ | ⟨last, rest, hlast, hunits, hsteps⟩
  · rw [leftAt?, scan, hsteps, hinner, hunits, if_neg hopen]
    rfl
  · have hstop := stop_of_steps_eq hsteps
    have hleave : last.after ≠ modes := by
      rw [hlast.after_close]
      exact ModeStack.leave_ne htop
    rw [leftAt?, scan, hsteps, List.find?_append, hinner,
      List.find?_cons_of_pos (by simpa using hleave), hunits, if_pos (by simp),
      List.flatMap_append, ← text_of_forall₂ hall]
    simp only [Option.none_or, Option.map_some, hstop, Nat.zero_add, List.flatMap_append,
      List.flatMap_singleton, hlast.chars]

/-! ### The first end of a comment -/

def ClosesAt (t : List Char) (k : Nat) : Prop := ['*', '/'] <+: t.drop k

structure FirstClose (t : List Char) (k : Nat) : Prop where
  closes : ClosesAt t k
  first : ∀ j < k, ¬ClosesAt t j

theorem closesAt_cons_zero {c : Char} {cs : List Char} :
    ClosesAt (c :: cs) 0 ↔ c = '*' ∧ cs.head? = some '/' := by
  cases cs with
  | nil => simp [ClosesAt]
  | cons d cs => simp [ClosesAt, List.cons_prefix_cons, eq_comm]

theorem closesAt_cons_succ {c : Char} {cs : List Char} {k : Nat} :
    ClosesAt (c :: cs) (k + 1) ↔ ClosesAt cs k := by
  simp [ClosesAt]

theorem not_closesAt_nil (k : Nat) : ¬ClosesAt [] k := by
  simp [ClosesAt]

/-- The first `*/` stands at the front, or in the rest of the text. -/
theorem firstClose_cons_iff {c : Char} {cs : List Char} {k : Nat} :
    FirstClose (c :: cs) k ↔
      if c = '*' ∧ cs.head? = some '/' then k = 0 else ∃ j, k = j + 1 ∧ FirstClose cs j := by
  split
  · rename_i hclose
    constructor
    · intro h
      by_contra hk
      exact h.first 0 (by omega) (closesAt_cons_zero.2 hclose)
    · rintro rfl
      exact ⟨closesAt_cons_zero.2 hclose, by omega⟩
  · rename_i hclose
    constructor
    · intro h
      cases k with
      | zero => exact absurd (closesAt_cons_zero.1 h.closes) hclose
      | succ j =>
        refine ⟨j, rfl, closesAt_cons_succ.1 h.closes, ?_⟩
        intro i hi hcloses
        exact h.first (i + 1) (by omega) (closesAt_cons_succ.2 hcloses)
    · rintro ⟨j, rfl, h⟩
      refine ⟨closesAt_cons_succ.2 h.closes, ?_⟩
      intro i hi
      cases i with
      | zero => exact fun hcloses => hclose (closesAt_cons_zero.1 hcloses)
      | succ i => exact fun hcloses => h.first i (by omega) (closesAt_cons_succ.1 hcloses)

/-- Where `/*` is no unit, a comment ends at the first `*/`. -/
theorem commentUnits_of_firstClose {t : List Char} {k : Nat} (h : FirstClose t k) :
    commentUnits false t = ((t.take k).map .text ++ [.close], t.drop (k + 2)) := by
  induction t generalizing k with
  | nil => exact absurd h.closes (not_closesAt_nil k)
  | cons c cs ih =>
    have hcases := firstClose_cons_iff.1 h
    split at hcases
    · rename_i hclose
      obtain ⟨rfl, hhead⟩ := hclose
      obtain ⟨rest, rfl⟩ := List.head?_eq_some_iff.1 hhead
      subst hcases
      rw [commentUnits_close]
      rfl
    · rename_i hclose
      obtain ⟨j, rfl, hj⟩ := hcases
      rw [commentUnits_text false hclose (by simp), ih hj]
      rfl

theorem close_mem_commentUnits {nests : Bool} {t : List Char}
    (h : .close ∈ (commentUnits nests t).1) : ∃ k, ClosesAt t k := by
  fun_induction commentUnits nests t with
  | case1 => simp at h
  | case2 c cs hclose => exact ⟨0, closesAt_cons_zero.2 hclose⟩
  | case3 c cs _ hnested us rest heq ih =>
    rw [heq] at ih
    obtain ⟨k, hk⟩ := ih (by simpa using h)
    obtain ⟨-, -, hhead⟩ := hnested
    obtain ⟨tail, rfl⟩ := List.head?_eq_some_iff.1 hhead
    exact ⟨k + 2, closesAt_cons_succ.2 (closesAt_cons_succ.2 hk)⟩
  | case4 c cs _ _ us rest heq ih =>
    rw [heq] at ih
    obtain ⟨k, hk⟩ := ih (by simpa using h)
    exact ⟨k + 1, closesAt_cons_succ.2 hk⟩

def SlashBefore (t : List Char) (k : Nat) : Prop := k ≠ 0 ∧ t[k - 1]? = some '/'

theorem slashBefore_cons_succ {c : Char} {cs : List Char} {k : Nat} :
    SlashBefore (c :: cs) (k + 1) ↔ k = 0 ∧ c = '/' ∨ SlashBefore cs k := by
  cases k <;> simp [SlashBefore]

/-- Where `/*` is a unit, a unit starts at place `j` of the text, before the end of the comment. -/
def DocUnitAt (t : List Char) (j : Nat) : Prop :=
  ∃ us, .close ∉ us ∧ us.flatMap CommentUnit.chars = t.take j ∧
    commentUnits true t =
      (us ++ (commentUnits true (t.drop j)).1, (commentUnits true (t.drop j)).2)

theorem docUnitAt_zero (t : List Char) : DocUnitAt t 0 := ⟨[], by simp, rfl, rfl⟩

theorem DocUnitAt.text {c : Char} {cs : List Char} {j : Nat}
    (hclose : ¬(c = '*' ∧ cs.head? = some '/')) (hnested : ¬(c = '/' ∧ cs.head? = some '*'))
    (h : DocUnitAt cs j) : DocUnitAt (c :: cs) (j + 1) := by
  obtain ⟨us, hopen, hchars, hunits⟩ := h
  refine ⟨.text c :: us, by simpa using hopen, ?_, ?_⟩
  · rw [List.flatMap_cons, hchars]
    rfl
  · rw [commentUnits_text true hclose (by simpa using hnested), hunits]
    rfl

theorem DocUnitAt.nested {cs : List Char} {j : Nat} (h : DocUnitAt cs j) :
    DocUnitAt ('/' :: '*' :: cs) (j + 2) := by
  obtain ⟨us, hopen, hchars, hunits⟩ := h
  refine ⟨.nested :: us, by simpa using hopen, ?_, ?_⟩
  · rw [List.flatMap_cons, hchars]
    rfl
  · rw [commentUnits_nested, hunits]
    rfl

/--
Where `/*` is a unit, one starts at the first `*/` of the text or, if a slash stands there, right
before it.
-/
theorem docUnitAt_of_firstClose {t : List Char} {k : Nat} (h : FirstClose t k) :
    ∃ j, DocUnitAt t j ∧ (SlashBefore t k ∧ k = j + 1 ∨ ¬SlashBefore t k ∧ k = j) := by
  -- on the length, since a `/*` takes two characters at once
  induction hn : t.length using Nat.strong_induction_on generalizing t k with
  | _ n ih =>
    cases t with
    | nil => exact absurd h.closes (not_closesAt_nil k)
    | cons c cs =>
      have hk := firstClose_cons_iff.1 h
      split at hk
      · subst hk
        exact ⟨0, docUnitAt_zero _, .inr ⟨by simp [SlashBefore], rfl⟩⟩
      rename_i hclose
      obtain ⟨j, rfl, hj⟩ := hk
      by_cases hnested : c = '/' ∧ cs.head? = some '*'
      · obtain ⟨rfl, hhead⟩ := hnested
        obtain ⟨cs, rfl⟩ := List.head?_eq_some_iff.1 hhead
        have hj := firstClose_cons_iff.1 hj
        split at hj
        · -- the star of the unit is the star of the first `*/`
          subst hj
          exact ⟨0, docUnitAt_zero _, .inl ⟨by simp [SlashBefore], rfl⟩⟩
        · obtain ⟨i, rfl, hi⟩ := hj
          obtain ⟨m, hm, hcases⟩ := ih cs.length (by simp at hn; omega) hi rfl
          have hslash : SlashBefore ('/' :: '*' :: cs) (i + 1 + 1) ↔ SlashBefore cs i := by
            simp [slashBefore_cons_succ]
          refine ⟨m + 2, hm.nested, ?_⟩
          rcases hcases with ⟨hbefore, rfl⟩ | ⟨hbefore, rfl⟩
          · exact .inl ⟨hslash.2 hbefore, rfl⟩
          · exact .inr ⟨fun h => hbefore (hslash.1 h), rfl⟩
      · obtain ⟨m, hm, hcases⟩ := ih cs.length (by simp at hn; omega) hj rfl
        have hslash : SlashBefore (c :: cs) (j + 1) ↔ SlashBefore cs j := by
          rw [slashBefore_cons_succ]
          constructor
          · rintro (⟨rfl, rfl⟩ | hslash)
            · -- the slash would be half of a `/*`
              obtain ⟨rest, hrest⟩ := hj.closes
              rw [List.drop_zero] at hrest
              exact absurd ⟨rfl, by rw [← hrest]; rfl⟩ hnested
            · exact hslash
          · exact .inr
        refine ⟨m + 1, hm.text hclose hnested, ?_⟩
        rcases hcases with ⟨hbefore, rfl⟩ | ⟨hbefore, rfl⟩
        · exact .inl ⟨hslash.2 hbefore, rfl⟩
        · exact .inr ⟨fun h => hbefore (hslash.1 h), rfl⟩

/-! ### Comparison of the two comments -/

theorem FirstClose.drop_eq {t : List Char} {k : Nat} (h : FirstClose t k) :
    t.drop k = '*' :: '/' :: t.drop (k + 2) := by
  obtain ⟨rest, hrest⟩ := h.closes
  have hdrop : t.drop (k + 2) = rest := by
    rw [← List.drop_drop, ← hrest]
    rfl
  rw [hdrop, ← hrest]
  rfl

theorem FirstClose.take_eq {t : List Char} {k : Nat} (h : FirstClose t k) :
    t.take (k + 2) = t.take k ++ ['*', '/'] := by
  rw [List.take_add, h.drop_eq]
  rfl

/-- Up to the first `*/`, and without a slash before it, the two comments are the same. -/
theorem docUnits_of_firstClose {t : List Char} {k : Nat} (h : FirstClose t k)
    (hslash : ¬SlashBefore t k) :
    .close ∈ (commentUnits true t).1 ∧
      (commentUnits true t).1.flatMap CommentUnit.chars = t.take (k + 2) := by
  obtain ⟨j, hunit, hcases⟩ := docUnitAt_of_firstClose h
  obtain ⟨-, rfl⟩ := hcases.resolve_left fun hc => hslash hc.1
  obtain ⟨us, -, hchars, hunits⟩ := hunit
  rw [h.drop_eq, commentUnits_close] at hunits
  rw [hunits]
  refine ⟨by simp, ?_⟩
  rw [List.flatMap_append, hchars, h.take_eq]
  rfl

theorem two_le_width_of_close {us : List CommentUnit} (h : .close ∈ us) :
    2 ≤ Text.width (us.flatMap CommentUnit.chars) := by
  obtain ⟨before, after, rfl⟩ := List.append_of_mem h
  have htwo : Text.width (CommentUnit.chars .close) = 2 := rfl
  rw [List.flatMap_append, List.flatMap_cons, Text.width_append, Text.width_append, htwo]
  omega

/-- With a slash before it, the first `*/` lies behind the place at which the doc comment ends. -/
theorem docUnits_of_slashBefore {t : List Char} {k : Nat} (h : FirstClose t k)
    (hslash : SlashBefore t k) (hclose : .close ∈ (commentUnits true t).1) :
    Text.width (t.take (k + 2)) <
      Text.width ((commentUnits true t).1.flatMap CommentUnit.chars) := by
  obtain ⟨j, hunit, hcases⟩ := docUnitAt_of_firstClose h
  obtain ⟨-, rfl⟩ := hcases.resolve_right fun hc => hc.1 hslash
  obtain ⟨us, hopen, hchars, hunits⟩ := hunit
  have hdrop : t.drop j = '/' :: '*' :: '/' :: t.drop (j + 1 + 2) := by
    have hlt : j < t.length := (List.getElem?_eq_some_iff.1 hslash.2).1
    have hget : t[j] = '/' := (List.getElem?_eq_some_iff.1 hslash.2).2
    rw [List.drop_eq_getElem_cons hlt, hget, h.drop_eq]
  rw [hdrop, commentUnits_nested] at hunits
  rw [hunits] at hclose ⊢
  have hmem : .close ∈ (commentUnits true ('/' :: t.drop (j + 1 + 2))).1 := by
    simpa [hopen] using hclose
  have hwide := two_le_width_of_close hmem
  have htake : t.take (j + 1 + 2) = t.take j ++ ['/', '*', '/'] := by
    rw [Nat.add_assoc, List.take_add, hdrop]
    rfl
  have hthree : Text.width ['/', '*', '/'] = 3 := rfl
  have htwo : Text.width (CommentUnit.chars .nested) = 2 := rfl
  rw [htake, List.flatMap_append, List.flatMap_cons, hchars, Text.width_append, Text.width_append,
    Text.width_append, hthree, htwo]
  omega

section
variable {below : ModeStack} {t : List Char}

/-- A block comment is left by the step that reads the first `*/`. -/
theorem scan_block_closed {k : Nat} (hk : FirstClose t k) :
    ∃ inner last, scan (below.enter .blockComment) t =
        inner ++ last :: steps (Text.width (t.take (k + 2))) below (t.drop (k + 2)) ∧
      (inner ++ [last]).flatMap Step.text = t.take (k + 2) ∧
      (∀ u ∈ (inner ++ [last]).flatMap Step.tokens, u.category = .blockComment) ∧
      (∀ s ∈ inner, s.after = below.enter .blockComment) ∧ last.after = below := by
  have htop : (below.enter .blockComment).top = .inside (commentRegion false) := rfl
  obtain ⟨inner, uss, hall, hopen, hend⟩ := steps_comment 0 htop t
  have hunits := commentUnits_of_firstClose hk
  rcases hend with ⟨hread, -⟩ | ⟨last, rest, hlast, hread, hsteps⟩
  · -- the units hold an end, so the steps read one
    rw [hunits] at hread
    have hflat : (t.take k).map .text ++ [.close] = uss.flatten := congrArg Prod.fst hread
    rw [← hflat] at hopen
    simp at hopen
  · rw [hunits] at hread
    obtain ⟨hflat, rfl⟩ : (t.take k).map .text ++ [.close] = uss.flatten ++ [.close] ∧
        t.drop (k + 2) = rest := by simpa using hread
    have htext : (inner ++ [last]).flatMap Step.text = t.take (k + 2) := by
      rw [List.flatMap_append, text_of_forall₂ hall, List.flatMap_singleton, ← hlast.chars,
        hk.take_eq, ← List.append_cancel_right hflat, flatMap_chars_text]
      rfl
    have hstop := stop_of_steps_eq hsteps
    rw [htext, Nat.zero_add] at hstop
    refine ⟨inner, last, ?_, htext, ?_, after_eq_of_forall₂ hall hopen, hlast.after_close⟩
    · rw [← hstop]
      exact hsteps
    · rw [List.flatMap_append, List.flatMap_singleton]
      exact List.forall_mem_append.2 ⟨category_of_forall₂ hall, hlast.category_eq⟩

theorem scan_block_open (hnone : ∀ k, ¬ClosesAt t k) :
    (∀ u ∈ tokens (below.enter .blockComment) t, u.category = .blockComment) ∧
      (∀ s ∈ scan (below.enter .blockComment) t, s.after = below.enter .blockComment) ∧
      finalModes (below.enter .blockComment) t = below.enter .blockComment := by
  have htop : (below.enter .blockComment).top = .inside (commentRegion false) := rfl
  obtain ⟨inner, uss, hall, hopen, hend⟩ := steps_comment 0 htop t
  rcases hend with ⟨-, hsteps⟩ | ⟨last, rest, -, hread, -⟩
  · have hafter := after_eq_of_forall₂ hall hopen
    rw [tokens, finalModes, scan, hsteps]
    exact ⟨category_of_forall₂ hall, hafter, endModes_of_after_eq hafter⟩
  · have hclose : .close ∈ (commentUnits false t).1 := by simp [hread]
    obtain ⟨k, hk⟩ := close_mem_commentUnits hclose
    exact absurd hk (hnone k)

theorem leftAt?_block {k : Nat} (hk : FirstClose t k) :
    leftAt? (below.enter .blockComment) t = some (Text.width (t.take (k + 2))) := by
  have hleft : leftAt? (below.enter .blockComment) t = _ := leftAt?_enter false below t
  rw [hleft, commentUnits_of_firstClose hk, if_pos (by simp), List.flatMap_append,
    flatMap_chars_text, hk.take_eq]
  rfl

theorem lt_of_leftAt?_doc {k n : Nat} (hk : FirstClose t k) (hslash : SlashBefore t k)
    (hn : leftAt? (below.enter .docComment) t = some n) : Text.width (t.take (k + 2)) < n := by
  have hleft : leftAt? (below.enter .docComment) t = _ := leftAt?_enter true below t
  rw [hleft] at hn
  split at hn
  · rename_i hclose
    rw [← Option.some.inj hn]
    exact docUnits_of_slashBefore hk hslash hclose
  · simp at hn

theorem leftAt?_doc {k : Nat} (hk : FirstClose t k) :
    leftAt? (below.enter .docComment) t = some (Text.width (t.take (k + 2))) ↔
      ¬SlashBefore t k := by
  constructor
  · intro hsame hslash
    exact Nat.lt_irrefl _ (lt_of_leftAt?_doc hk hslash hsame)
  · intro hslash
    have hleft : leftAt? (below.enter .docComment) t = _ := leftAt?_enter true below t
    obtain ⟨hclose, hchars⟩ := docUnits_of_firstClose hk hslash
    rw [hleft, if_pos hclose, hchars]

theorem leftAt?_eq_none (nests : Bool) (hnone : ∀ k, ¬ClosesAt t k) :
    leftAt? (below.enter (commentRegion nests)) t = none := by
  have hleft := leftAt?_enter nests below t
  rw [hleft, if_neg]
  intro hmem
  obtain ⟨k, hk⟩ := close_mem_commentUnits hmem
  exact hnone k hk

end

/--
A block comment ends at the first `*/` of its text, and a doc comment at the first `*/` that is
reached when each `/*` is taken as a unit. So the two end at the same place unless a slash stands
right before the first `*/`, and then the doc comment goes on past it.
-/
theorem comment_ends (below below' : ModeStack) (t : List Char) :
    let block := below.enter .blockComment
    let doc := below'.enter .docComment
    (∀ k, FirstClose t k → ∃ inner last,
      scan block t = inner ++ last :: steps (Text.width (t.take (k + 2))) below (t.drop (k + 2)) ∧
      (inner ++ [last]).flatMap Step.text = t.take (k + 2) ∧
      (∀ u ∈ (inner ++ [last]).flatMap Step.tokens, u.category = .blockComment) ∧
      (∀ s ∈ inner, s.after = block) ∧ last.after = below) ∧
    ((∀ k, ¬ClosesAt t k) → (∀ u ∈ tokens block t, u.category = .blockComment) ∧
      (∀ s ∈ scan block t, s.after = block) ∧ finalModes block t = block) ∧
    (commentUnits true t).1.flatMap CommentUnit.chars ++ (commentUnits true t).2 = t ∧
    (∃ inner uss, List.Forall₂ (Step.ReadsUnits true doc) inner uss ∧ .close ∉ uss.flatten ∧
      (commentUnits true t = (uss.flatten, []) ∧ scan doc t = inner ∨
        ∃ last rest, last.ReadsUnits true doc [.close] ∧
          commentUnits true t = (uss.flatten ++ [.close], rest) ∧
          scan doc t = inner ++ last :: steps last.stop below' rest)) ∧
    ((∀ k, ¬ClosesAt t k) → leftAt? block t = none ∧ leftAt? doc t = none) ∧
    ∀ k, FirstClose t k →
      leftAt? block t = some (Text.width (t.take (k + 2))) ∧
      (leftAt? doc t = leftAt? block t ↔ k = 0 ∨ t[k - 1]? ≠ some '/') ∧
      (k ≠ 0 → t[k - 1]? = some '/' →
        ∀ n, leftAt? doc t = some n → Text.width (t.take (k + 2)) < n) := by
  intro block doc
  have htop : doc.top = .inside (commentRegion true) := rfl
  refine ⟨fun k hk => scan_block_closed hk, scan_block_open, flatMap_chars_commentUnits true t,
    steps_comment 0 htop t, ?_, ?_⟩
  · intro hnone
    exact ⟨leftAt?_eq_none false hnone, leftAt?_eq_none true hnone⟩
  · intro k hk
    have hslash : ¬SlashBefore t k ↔ k = 0 ∨ t[k - 1]? ≠ some '/' := by
      rw [SlashBefore, not_and_or, not_not]
    refine ⟨leftAt?_block hk, ?_, fun hzero hget n hn => lt_of_leftAt?_doc hk ⟨hzero, hget⟩ hn⟩
    rw [← hslash, leftAt?_block hk]
    exact leftAt?_doc hk

end Tokenizer
