import Tokenizer.Proofs.Patch
import Tokenizer.Proofs.Stretch

/-!
Colourings. The category of each byte of a source leaves one way to colour the source: patches in
order, as few as possible, over all bytes but white space. The highlights of a source are these
patches, so they do not depend on how a scan cuts the source into tokens.
-/
namespace Tokenizer

namespace Patch

theorem covers_iff {p : Patch} {n : Nat} :
    p.covers n = true ↔ p.span.start ≤ n ∧ n < p.span.stop := by
  simp [covers]

/--
The patches are a colouring of bytes with the given categories: they come in order and do not
overlap, they cover all bytes but white space, and no two that touch could be one.
-/
structure Colours (category : Nat → Option Category) (ps : List Patch) : Prop where
  nonempty : ∀ p ∈ ps, p.span.start < p.span.stop
  ordered : ps.Pairwise fun p q => p.span.stop ≤ q.span.start
  covered : ∀ n c, category n = some c → ((∃ p ∈ ps, p.covers n = true) ↔ c ≠ .whitespace)
  category_eq : ∀ p ∈ ps, ∀ n, p.covers n = true → category n = some p.category
  maximal : ps.IsChain fun p q => ¬(p.span.stop = q.span.start ∧ p.category = q.category)

namespace Colours

variable {category : Nat → Option Category} {p q : Patch} {ps qs : List Patch}

theorem covers_start (h : Colours category ps) (hp : p ∈ ps) : p.covers p.span.start = true := by
  have hlt := h.nonempty p hp
  exact covers_iff.2 ⟨Nat.le_refl _, hlt⟩

theorem ne_whitespace (h : Colours category ps) (hp : p ∈ ps) : p.category ≠ .whitespace := by
  have hstart := h.covers_start hp
  have hcategory := h.category_eq p hp _ hstart
  exact (h.covered _ _ hcategory).1 ⟨p, hp, hstart⟩

/-! ### There is only one colouring -/

theorem exists_covers (h : Colours category ps) (h' : Colours category qs) {n : Nat}
    (hp : p ∈ ps) (hn : p.covers n = true) : ∃ q ∈ qs, q.covers n = true := by
  have hcategory := h.category_eq p hp n hn
  exact (h'.covered n _ hcategory).2 (h.ne_whitespace hp)

theorem head_start_le (h : Colours category (p :: ps)) {n : Nat}
    (hn : ∃ r ∈ p :: ps, r.covers n = true) : p.span.start ≤ n := by
  obtain ⟨r, hr, hcovers⟩ := hn
  have hle := (covers_iff.1 hcovers).1
  have hlt := h.nonempty p List.mem_cons_self
  rcases List.mem_cons.1 hr with rfl | hr
  · exact hle
  · have hbefore := List.rel_of_pairwise_cons h.ordered hr
    omega

/-- What follows the first patch of a colouring starts with another category, or further on. -/
theorem ne_of_covers_stop (h : Colours category (p :: ps)) {r : Patch} (hr : r ∈ p :: ps)
    (hcovers : r.covers p.span.stop = true) : r.category ≠ p.category := by
  obtain ⟨hstart, hstop⟩ := covers_iff.1 hcovers
  rcases List.mem_cons.1 hr with rfl | hr
  · omega
  · cases ps with
    | nil => simp at hr
    | cons u us =>
      have hp := List.rel_of_pairwise_cons h.ordered (List.mem_cons_self (a := u) (l := us))
      rcases List.mem_cons.1 hr with rfl | hus
      · intro hcategory
        exact h.maximal.rel ⟨by omega, hcategory.symm⟩
      · have hu := List.rel_of_pairwise_cons h.ordered.of_cons hus
        have hlt := h.nonempty u (by simp)
        omega

theorem head_stop_le (h : Colours category (p :: ps)) (h' : Colours category (q :: qs))
    (hstart : p.span.start = q.span.start) : q.span.stop ≤ p.span.stop := by
  by_contra hlt
  have hp := h.covers_start (List.mem_cons_self (a := p) (l := ps))
  have hne := h.nonempty p List.mem_cons_self
  have hq : q.covers p.span.start = true := covers_iff.2 ⟨by omega, by omega⟩
  have hstop : q.covers p.span.stop = true := covers_iff.2 ⟨by omega, by omega⟩
  have hmem : q ∈ q :: qs := List.mem_cons_self
  -- both patches give the byte at which they start its category
  have hsame : some p.category = some q.category := by
    rw [← h.category_eq p List.mem_cons_self _ hp, h'.category_eq q hmem _ hq]
  obtain ⟨r, hr, hcovers⟩ := h'.exists_covers h hmem hstop
  have hr_category : some r.category = some q.category := by
    rw [← h.category_eq r hr _ hcovers, h'.category_eq q hmem _ hstop]
  exact h.ne_of_covers_stop hr hcovers (Option.some.inj (hr_category.trans hsame.symm))

theorem head_eq (h : Colours category (p :: ps)) (h' : Colours category (q :: qs)) : p = q := by
  have hmem : p ∈ p :: ps := List.mem_cons_self
  have hmem' : q ∈ q :: qs := List.mem_cons_self
  have hle := h'.head_start_le (h.exists_covers h' hmem (h.covers_start hmem))
  have hge := h.head_start_le (h'.exists_covers h hmem' (h'.covers_start hmem'))
  have hstart : p.span.start = q.span.start := by omega
  have hstop : p.span.stop = q.span.stop :=
    Nat.le_antisymm (h'.head_stop_le h hstart.symm) (h.head_stop_le h' hstart)
  have hcategory : some p.category = some q.category := by
    rw [← h.category_eq p hmem _ (h.covers_start hmem), hstart,
      h'.category_eq q hmem' _ (h'.covers_start hmem')]
  obtain ⟨c, a, b⟩ := p
  obtain ⟨c', a', b'⟩ := q
  simp_all

/-- The patches after the first one colour the bytes after it. -/
theorem tail (h : Colours category (p :: ps)) :
    Colours (fun n => if p.span.stop ≤ n then category n else none) ps where
  nonempty r hr := h.nonempty r (List.mem_cons_of_mem p hr)
  ordered := h.ordered.of_cons
  covered := by
    intro n c hn
    obtain ⟨hle, hn⟩ : p.span.stop ≤ n ∧ category n = some c := by simpa using hn
    rw [← h.covered n c hn]
    constructor
    · rintro ⟨r, hr, hcovers⟩
      exact ⟨r, List.mem_cons_of_mem p hr, hcovers⟩
    · rintro ⟨r, hr, hcovers⟩
      rcases List.mem_cons.1 hr with rfl | hr
      · have hlt := (covers_iff.1 hcovers).2
        omega
      · exact ⟨r, hr, hcovers⟩
  category_eq := by
    intro r hr n hcovers
    have hbefore := List.rel_of_pairwise_cons h.ordered hr
    have hle := (covers_iff.1 hcovers).1
    rw [if_pos (by omega)]
    exact h.category_eq r (List.mem_cons_of_mem p hr) n hcovers
  maximal := h.maximal.tail

theorem unique (h : Colours category ps) (h' : Colours category qs) : ps = qs := by
  induction ps generalizing category qs with
  | nil =>
    cases qs with
    | nil => rfl
    | cons q qs =>
      have hmem : q ∈ q :: qs := List.mem_cons_self
      obtain ⟨r, hr, -⟩ := h'.exists_covers h hmem (h'.covers_start hmem)
      simp at hr
  | cons p ps ih =>
    cases qs with
    | nil =>
      have hmem : p ∈ p :: ps := List.mem_cons_self
      obtain ⟨r, hr, -⟩ := h.exists_covers h' hmem (h.covers_start hmem)
      simp at hr
    | cons q qs =>
      obtain rfl : p = q := h.head_eq h'
      rw [ih h.tail h'.tail]

end Colours

/-! ### Colouring one more patch -/

/-- The categories of bytes when a patch is put over them. -/
def paint (p : Patch) (category : Nat → Option Category) (n : Nat) : Option Category :=
  if p.covers n then some p.category else category n

theorem categoryAt_cons (n : Nat) (p : Patch) (ps : List Patch) :
    categoryAt n (p :: ps) = p.paint (fun n => categoryAt n ps) n := by
  simp only [categoryAt, paint, List.find?_cons]
  cases p.covers n <;> rfl

namespace Colours

variable {category : Nat → Option Category} {p q : Patch} {ps : List Patch}

section
variable (hnone : ∀ n < p.span.stop, category n = none)
include hnone

theorem stop_le_start (h : Colours category ps) (hq : q ∈ ps) : p.span.stop ≤ q.span.start := by
  by_contra hlt
  have hcategory := h.category_eq q hq _ (h.covers_start hq)
  rw [hnone _ (by omega)] at hcategory
  simp at hcategory

theorem not_covers (h : Colours category ps) (hq : q ∈ ps) {n : Nat} (hn : p.covers n = true) :
    q.covers n = false := by
  have hle := stop_le_start hnone h hq
  have hlt := (covers_iff.1 hn).2
  rw [Bool.eq_false_iff, ne_eq, covers_iff]
  omega

theorem paint_of_mem (h : Colours category ps) (hq : q ∈ ps) {n : Nat} (hn : q.covers n = true) :
    p.paint category n = some q.category := by
  have hp : p.covers n = false := by
    by_contra hcovers
    have hnot := not_covers hnone h hq (by simpa using hcovers)
    simp [hn] at hnot
  rw [paint, hp]
  exact h.category_eq q hq n hn

theorem paint_whitespace (h : Colours category ps) (hp : p.category = .whitespace) :
    Colours (p.paint category) ps where
  nonempty := h.nonempty
  ordered := h.ordered
  covered := by
    intro n c hn
    rw [paint] at hn
    split at hn
    · rename_i hcovers
      obtain rfl : p.category = c := Option.some.inj hn
      constructor
      · rintro ⟨q, hq, hq_covers⟩
        have hnot := not_covers hnone h hq hcovers
        simp [hq_covers] at hnot
      · intro hne
        exact absurd hp hne
    · exact h.covered n c hn
  category_eq q hq n hn := paint_of_mem hnone h hq hn
  maximal := h.maximal

theorem paint_cons (h : Colours category ps) (hp : p.span.start < p.span.stop)
    (hblank : p.category ≠ .whitespace)
    (hhead : ∀ q ∈ ps.head?, ¬(p.span.stop = q.span.start ∧ p.category = q.category)) :
    Colours (p.paint category) (p :: ps) where
  nonempty := List.forall_mem_cons.2 ⟨hp, h.nonempty⟩
  ordered := List.pairwise_cons.2 ⟨fun q hq => stop_le_start hnone h hq, h.ordered⟩
  covered := by
    intro n c hn
    rw [paint] at hn
    split at hn
    · rename_i hcovers
      obtain rfl : p.category = c := Option.some.inj hn
      exact ⟨fun _ => hblank, fun _ => ⟨p, List.mem_cons_self, hcovers⟩⟩
    · rename_i hcovers
      rw [← h.covered n c hn]
      simp [hcovers]
  category_eq := by
    refine List.forall_mem_cons.2 ⟨?_, fun q hq n hn => paint_of_mem hnone h hq hn⟩
    intro n hn
    rw [paint, if_pos hn]
  maximal := List.isChain_cons.2 ⟨hhead, h.maximal⟩

/-- A patch that touches the first of a colouring and has its category widens it. -/
theorem paint_join (h : Colours category (q :: ps)) (hp : p.span.start < p.span.stop)
    (htouch : p.span.stop = q.span.start) (hsame : p.category = q.category) :
    Colours (p.paint category) ({ p with span := p.span.merge q.span } :: ps) := by
  have hmem : q ∈ q :: ps := List.mem_cons_self
  have hq := h.nonempty q hmem
  have hmerge : p.span.merge q.span = ⟨p.span.start, q.span.stop⟩ := by
    simp only [Span.merge, Span.mk.injEq]
    omega
  have hcovers : ∀ n, covers n { p with span := p.span.merge q.span } = true ↔
      p.covers n = true ∨ q.covers n = true := by
    intro n
    rw [hmerge]
    simp only [covers_iff]
    omega
  refine ⟨?_, ?_, ?_, ?_, ?_⟩
  · refine List.forall_mem_cons.2 ⟨?_, fun r hr => h.nonempty r (List.mem_cons_of_mem q hr)⟩
    simp only [hmerge]
    omega
  · refine List.pairwise_cons.2 ⟨?_, h.ordered.of_cons⟩
    intro r hr
    rw [hmerge]
    exact List.rel_of_pairwise_cons h.ordered hr
  · intro n c hn
    rw [paint] at hn
    simp only [List.exists_mem_cons_iff, hcovers]
    split at hn
    · rename_i hpn
      obtain rfl : p.category = c := Option.some.inj hn
      simp only [hpn, true_or, true_iff]
      rw [hsame]
      exact h.ne_whitespace hmem
    · rename_i hpn
      rw [← h.covered n c hn]
      simp [hpn]
  · refine List.forall_mem_cons.2 ⟨?_, ?_⟩
    · intro n hn
      rcases (hcovers n).1 hn with hpn | hqn
      · rw [paint, if_pos hpn]
      · rw [paint_of_mem hnone h hmem hqn, hsame]
    · intro r hr n hn
      exact paint_of_mem hnone h (List.mem_cons_of_mem q hr) hn
  · obtain ⟨hhead, htail⟩ := List.isChain_cons.1 h.maximal
    refine List.isChain_cons.2 ⟨?_, htail⟩
    intro r hr
    rw [hmerge]
    simpa only [hsame] using hhead r hr

end

end Colours
end Patch

/-! ### Highlights -/

/-- Tokens that lie end to end give a byte its category, and none outside of them. -/
theorem LaidFrom.categoryAt_eq_none {start : Nat} {ts : List Token} (h : LaidFrom start ts)
    {n : Nat} (hn : n < start) : Patch.categoryAt n (ts.map Token.patch) = none := by
  rw [Patch.categoryAt, Option.map_eq_none_iff, List.find?_eq_none]
  intro p hp hcovers
  obtain ⟨t, ht, rfl⟩ := List.mem_map.1 hp
  have hle := (h.within t ht).1
  have hcovers := (Patch.covers_iff.1 hcovers).1
  simp only [Token.patch, Token.span] at hcovers
  omega

theorem Token.joins_iff {t u : Token} :
    t.joins u = true ↔ t.category = u.category ∧ t.stop = u.start := by
  simp [joins]

theorem Token.patch_join {t u : Token} (h : t.joins u = true) :
    ({ t with text := t.text ++ u.text } : Token).patch =
      { t.patch with span := t.patch.span.merge u.patch.span } := by
  have hspan := span_join (stop_eq_of_joins h)
  rw [patch, hspan]
  rfl

theorem colours_joinTo {category : Nat → Option Category} {t : Token} {us : List Token}
    (h : Patch.Colours category (us.map Token.patch)) (ht : t.start < t.stop)
    (hnone : ∀ n < t.stop, category n = none) (hblank : t.category ≠ .whitespace) :
    Patch.Colours (t.patch.paint category) ((t.joinTo us).map Token.patch) := by
  cases us with
  | nil => exact Patch.Colours.paint_cons hnone h ht hblank (by simp)
  | cons u us =>
    rw [Token.joinTo]
    split
    · rename_i hjoins
      obtain ⟨hsame, htouch⟩ := Token.joins_iff.1 hjoins
      rw [List.map_cons, Token.patch_join hjoins]
      exact Patch.Colours.paint_join (p := t.patch) hnone h ht htouch hsame
    · rename_i hjoins
      refine Patch.Colours.paint_cons hnone h ht hblank ?_
      intro q hq
      obtain rfl : u.patch = q := by simpa using hq
      rintro ⟨hstop, hcategory⟩
      exact hjoins (Token.joins_iff.2 ⟨hcategory, hstop⟩)

/-- Tokens that lie end to end, less white space, join into the colouring of their bytes. -/
theorem colours_coalesce {start : Nat} {ts : List Token} (h : LaidFrom start ts) :
    Patch.Colours (fun n => Patch.categoryAt n (ts.map Token.patch))
      ((coalesce (significant ts)).map Token.patch) := by
  induction ts generalizing start with
  | nil => exact ⟨by simp [significant, coalesce], by simp [significant, coalesce],
      by simp [Patch.categoryAt], by simp [significant, coalesce], by simp [significant, coalesce]⟩
  | cons t ts ih =>
    obtain ⟨-, hne, hts⟩ := h
    have hpos := Text.width_pos hne
    have ht : t.start < t.stop := by
      rw [Token.stop]
      omega
    have hnone : ∀ n < t.stop, Patch.categoryAt n (ts.map Token.patch) = none :=
      fun n hn => hts.categoryAt_eq_none hn
    have hcategory : (fun n => Patch.categoryAt n ((t :: ts).map Token.patch)) =
        t.patch.paint fun n => Patch.categoryAt n (ts.map Token.patch) := by
      funext n
      exact Patch.categoryAt_cons n t.patch (ts.map Token.patch)
    rw [hcategory]
    by_cases hblank : t.category = .whitespace
    · have hdrop : significant (t :: ts) = significant ts := by
        simp [significant, hblank, Category.isTrivia]
      rw [hdrop]
      exact Patch.Colours.paint_whitespace hnone (ih hts) hblank
    · have htrivia : t.category.isTrivia = false := by
        cases hc : t.category <;> simp_all [Category.isTrivia]
      have hkeep : significant (t :: ts) = t :: significant ts := by
        simp [significant, htrivia]
      rw [hkeep]
      exact colours_joinTo (ih hts) ht hnone hblank

/-! ### Joining from the left -/

/-- Puts a patch after others, as part of the last one if it touches it and has its category. -/
def Patch.extendLast (ps : List Patch) (p : Patch) : List Patch :=
  match ps.getLast? with
  | none => [p]
  | some last =>
    if last.category = p.category ∧ last.span.stop = p.span.start then
      ps.dropLast ++ [{ last with span := last.span.merge p.span }]
    else
      ps ++ [p]

theorem Patch.extendLast_append (ps : List Patch) (last p : Patch) :
    extendLast (ps ++ [last]) p =
      ps ++ if last.category = p.category ∧ last.span.stop = p.span.start then
        [{ last with span := last.span.merge p.span }] else [last, p] := by
  rw [extendLast, List.getLast?_concat]
  simp only [List.dropLast_concat]
  split
  · rfl
  · simp

theorem Token.joins_of_join {t u : Token} (h : t.joins u = true) (v : Token) :
    ({ t with text := t.text ++ u.text } : Token).joins v = u.joins v := by
  obtain ⟨hsame, htouch⟩ := joins_iff.1 h
  have hstop : ({ t with text := t.text ++ u.text } : Token).stop = u.stop := by
    simp only [stop, Text.width_append] at htouch ⊢
    omega
  rw [joins, joins, hstop, hsame]

/-- Whether a token joins what follows it is settled by the next token. -/
theorem coalesce_cons_cons (t u : Token) (us : List Token) :
    coalesce (t :: u :: us) =
      if t.joins u then coalesce ({ t with text := t.text ++ u.text } :: us)
      else t :: coalesce (u :: us) := by
  change t.joinTo (u.joinTo (coalesce us)) =
    if t.joins u then Token.joinTo { t with text := t.text ++ u.text } (coalesce us)
    else t :: u.joinTo (coalesce us)
  cases coalesce us with
  | nil => simp [Token.joinTo]
  | cons v vs =>
    -- what `u` takes in does not move its start, which is all that `t` looks at
    have hleft : t.joins { u with text := u.text ++ v.text } = t.joins u := rfl
    by_cases htu : t.joins u = true
    · have hright := Token.joins_of_join htu v
      by_cases huv : u.joins v = true
      · simp [Token.joinTo, huv, htu, hleft, hright]
      · simp [Token.joinTo, huv, htu, hright]
    · by_cases huv : u.joins v = true
      · simp [Token.joinTo, huv, htu, hleft]
      · simp [Token.joinTo, huv, htu]

/-- Tokens that are put one by one after those before them make up the same stretches. -/
theorem foldl_extendLast (acc : List Patch) (t : Token) (ts : List Token) :
    (ts.map Token.patch).foldl Patch.extendLast (acc ++ [t.patch]) =
      acc ++ (coalesce (t :: ts)).map Token.patch := by
  induction ts generalizing acc t with
  | nil => simp [coalesce, Token.joinTo]
  | cons u us ih =>
    rw [List.map_cons, List.foldl_cons, Patch.extendLast_append, coalesce_cons_cons]
    have hjoins : (t.patch.category = u.patch.category ∧
        t.patch.span.stop = u.patch.span.start) ↔ t.joins u = true := Token.joins_iff.symm
    simp only [hjoins]
    split
    · rename_i htu
      rw [← ih, Token.patch_join htu]
    · have hsplit : acc ++ [t.patch, u.patch] = (acc ++ [t.patch]) ++ [u.patch] := by simp
      rw [hsplit, ih]
      simp

theorem map_patch_coalesce (ts : List Token) :
    (coalesce ts).map Token.patch = (ts.map Token.patch).foldl Patch.extendLast [] := by
  cases ts with
  | nil => rfl
  | cons t ts =>
    have hfold := foldl_extendLast [] t ts
    rw [List.nil_append, List.nil_append] at hfold
    rw [← hfold]
    rfl

theorem LaidFrom.categoryAt_of_mem {start : Nat} {ts : List Token} (h : LaidFrom start ts)
    {t : Token} (ht : t ∈ ts) {n : Nat} (hn : t.patch.covers n = true) :
    Patch.categoryAt n (ts.map Token.patch) = some t.category := by
  induction ts generalizing start with
  | nil => simp at ht
  | cons u us ih =>
    obtain ⟨-, -, hus⟩ := h
    rw [List.map_cons, Patch.categoryAt_cons, Patch.paint]
    rcases List.mem_cons.1 ht with rfl | ht
    · rw [if_pos hn]
      rfl
    · have hle := (hus.within t ht).1
      have hstart := (Patch.covers_iff.1 hn).1
      have hcovers : u.patch.covers n = false := by
        rw [Bool.eq_false_iff, ne_eq, Patch.covers_iff]
        simp only [Token.patch, Token.span] at hstart ⊢
        omega
      rw [hcovers]
      exact ih hus ht

/-- A byte has a category if it lies in one of the tokens. -/
theorem LaidFrom.isSome_categoryAt {start : Nat} {ts : List Token} (h : LaidFrom start ts)
    (n : Nat) : (Patch.categoryAt n (ts.map Token.patch)).isSome = true ↔
      start ≤ n ∧ n < start + Text.width (ts.flatMap Token.text) := by
  induction ts generalizing start with
  | nil =>
    simp only [List.map_nil, List.flatMap_nil, Text.width_nil]
    constructor
    · intro hsome
      simp [Patch.categoryAt] at hsome
    · omega
  | cons t ts ih =>
    obtain ⟨rfl, hne, hts⟩ := h
    have hpos := Text.width_pos hne
    have hrest := ih hts
    rw [List.map_cons, Patch.categoryAt_cons, Patch.paint, List.flatMap_cons, Text.width_append]
    simp only [Token.stop] at hrest
    split
    · rename_i hcovers
      rw [Patch.covers_iff] at hcovers
      simp only [Token.patch, Token.span, Token.stop] at hcovers
      simp only [Option.isSome_some, true_iff]
      omega
    · rename_i hcovers
      rw [Patch.covers_iff] at hcovers
      simp only [Token.patch, Token.span, Token.stop] at hcovers
      rw [hrest]
      omega

theorem isBoundary_of_placedIn {source : List Char} {t : Token} (h : t.PlacedIn source) :
    Text.IsBoundary source t.start ∧ Text.IsBoundary source t.stop := by
  obtain ⟨before, after, rfl, hstart⟩ := Token.placedIn_iff.1 h
  have hstop : t.stop = Text.width (before ++ t.text) := by
    rw [Token.stop, Text.width_append, hstart]
  refine ⟨?_, ?_⟩
  · rw [← hstart]
    exact Text.isBoundary_width_append _ _
  · rw [hstop, ← List.append_assoc]
    exact Text.isBoundary_width_append _ _

/--
The highlights of a source are the one colouring of its bytes. They start and stop between
characters, any other way to cut the source into tokens that gives all bytes the same categories
has the same highlights, and they can be made by extending the last one token by token.
-/
theorem highlight_eq_colouring (source : List Char) :
    let category := fun n => Patch.categoryAt n ((tokens {} source).map Token.patch)
    let highlights := (highlight source).map Token.patch
    (∀ n, (category n).isSome = true ↔ n < Text.width source) ∧
    (∀ t ∈ tokens {} source, ∀ n, t.patch.covers n = true → category n = some t.category) ∧
    Patch.Colours category highlights ∧
    (∀ p ∈ highlights,
      Text.IsBoundary source p.span.start ∧ Text.IsBoundary source p.span.stop) ∧
    (∀ ps, Patch.Colours category ps → ps = highlights) ∧
    (∀ ts, LaidFrom 0 ts → (∀ n, Patch.categoryAt n (ts.map Token.patch) = category n) →
      (coalesce (significant ts)).map Token.patch = highlights) ∧
    highlights = ((significant (tokens {} source)).map Token.patch).foldl Patch.extendLast [] := by
  intro category highlights
  have hlaid : LaidFrom 0 (tokens {} source) := laidFrom_steps 0 {} source
  have hcolours : Patch.Colours category highlights := colours_coalesce hlaid
  refine ⟨?_, ?_, hcolours, ?_, ?_, ?_, ?_⟩
  · intro n
    have hsome := hlaid.isSome_categoryAt n
    have htext : (tokens {} source).flatMap Token.text = source :=
      flatMap_text_tokens_steps 0 {} source
    rw [htext] at hsome
    simpa using hsome
  · intro t ht n hn
    exact hlaid.categoryAt_of_mem ht hn
  · intro p hp
    obtain ⟨t, ht, rfl⟩ := List.mem_map.1 hp
    exact isBoundary_of_placedIn (placedIn_highlight source t ht)
  · intro ps hps
    exact hps.unique hcolours
  · intro ts hts hsame
    have hother := colours_coalesce hts
    rw [funext hsame] at hother
    exact hother.unique hcolours
  · exact map_patch_coalesce (significant (tokens {} source))

end Tokenizer
