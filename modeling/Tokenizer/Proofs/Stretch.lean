import Tokenizer.Highlight
import Tokenizer.Proofs.Partition

/-!
Stretches of a source. A token is placed in a source if its text is what its span covers there.
Touching tokens that are placed join into one that is placed, so every coloured stretch reads the
text that it covers.
-/
namespace Tokenizer

/-- Two ways to divide a text at one offset are the same. -/
theorem Text.append_inj_of_width {xs ys xs' ys' : List Char} (h : xs ++ ys = xs' ++ ys')
    (hwidth : width xs = width xs') : xs = xs' ∧ ys = ys' := by
  have hcut := cut?_width_append xs ys
  rw [h, hwidth, cut?_width_append] at hcut
  simpa [eq_comm] using hcut

theorem Span.slice?_eq_some_iff {span : Span} {source xs : List Char} :
    span.slice? source = some xs ↔
      ∃ before after, source = before ++ (xs ++ after) ∧ Text.width before = span.start ∧
        span.start + Text.width xs = span.stop := by
  constructor
  · intro h
    obtain ⟨n, hlength, ⟨before, rest⟩, hbefore, ⟨covered, after⟩, hcovered, heq⟩ :
        ∃ n, span.length? = some n ∧ ∃ p, Text.cut? span.start source = some p ∧
          ∃ q, Text.cut? n p.2 = some q ∧ q.1 = xs := by
      simpa [slice?, Option.bind_eq_some_iff] using h
    obtain ⟨rfl, hstart⟩ := Text.eq_of_cut? hbefore
    obtain ⟨hrest, hwidth⟩ := Text.eq_of_cut? hcovered
    obtain ⟨hle, hn⟩ : span.start ≤ span.stop ∧ span.stop - span.start = n := by
      simpa [length?] using hlength
    obtain rfl : covered = xs := heq
    obtain rfl : rest = covered ++ after := hrest
    exact ⟨before, after, rfl, hstart, by omega⟩
  · rintro ⟨before, after, rfl, hstart, hstop⟩
    have hspan : span = ⟨Text.width before, Text.width before + Text.width xs⟩ := by
      rw [hstart, hstop]
    rw [hspan, slice?_append]

namespace Token

/-- The token reads what its span covers in the source. -/
def PlacedIn (source : List Char) (t : Token) : Prop := t.span.slice? source = some t.text

theorem placedIn_iff {source : List Char} {t : Token} :
    t.PlacedIn source ↔
      ∃ before after, source = before ++ (t.text ++ after) ∧ Text.width before = t.start := by
  simp [PlacedIn, Span.slice?_eq_some_iff, span, stop]

theorem stop_eq_of_joins {t u : Token} (h : t.joins u = true) : t.stop = u.start := by
  simp only [joins, Bool.and_eq_true, beq_iff_eq] at h
  exact h.2

/-- Joined tokens cover what each of them covers. -/
theorem span_join {t u : Token} (htouch : t.stop = u.start) :
    ({ t with text := t.text ++ u.text } : Token).span = t.span.merge u.span := by
  simp only [stop] at htouch
  simp only [span, stop, Span.merge, Text.width_append, Span.mk.injEq]
  omega

/-- Touching tokens join into a token that is placed. -/
theorem PlacedIn.join {source : List Char} {t u : Token} (ht : t.PlacedIn source)
    (hu : u.PlacedIn source) (htouch : t.stop = u.start) :
    ({ t with text := t.text ++ u.text } : Token).PlacedIn source := by
  obtain ⟨before, after, hsource, hstart⟩ := placedIn_iff.1 ht
  obtain ⟨before', after', hsource', hstart'⟩ := placedIn_iff.1 hu
  have hdivide : (before ++ t.text) ++ after = before' ++ (u.text ++ after') := by
    rw [List.append_assoc, ← hsource, hsource']
  have hwidth : Text.width (before ++ t.text) = Text.width before' := by
    rw [Text.width_append, hstart, hstart', ← htouch, stop]
  obtain ⟨-, hafter⟩ := Text.append_inj_of_width hdivide hwidth
  rw [placedIn_iff]
  exact ⟨before, after', by rw [hsource, hafter, List.append_assoc], hstart⟩

theorem placedIn_joinTo {source : List Char} {t : Token} {us : List Token}
    (ht : t.PlacedIn source) (hus : ∀ u ∈ us, u.PlacedIn source) :
    ∀ u ∈ t.joinTo us, u.PlacedIn source := by
  cases us with
  | nil => simpa [joinTo] using ht
  | cons u us =>
    obtain ⟨hu, hus⟩ := List.forall_mem_cons.1 hus
    rw [joinTo]
    split
    · rename_i hjoins
      exact List.forall_mem_cons.2 ⟨ht.join hu (stop_eq_of_joins hjoins), hus⟩
    · exact List.forall_mem_cons.2 ⟨ht, List.forall_mem_cons.2 ⟨hu, hus⟩⟩

end Token

theorem placedIn_coalesce {source : List Char} {ts : List Token}
    (h : ∀ t ∈ ts, t.PlacedIn source) : ∀ t ∈ coalesce ts, t.PlacedIn source := by
  induction ts with
  | nil => simp [coalesce]
  | cons t ts ih =>
    obtain ⟨ht, hts⟩ := List.forall_mem_cons.1 h
    exact Token.placedIn_joinTo ht (ih hts)

theorem placedIn_tokens (modes : ModeStack) (source : List Char) :
    ∀ t ∈ tokens modes source, t.PlacedIn source :=
  (partition_tokens modes source).slice

/-- Every coloured stretch reads the text that it covers. -/
theorem placedIn_highlight (source : List Char) : ∀ t ∈ highlight source, t.PlacedIn source := by
  apply placedIn_coalesce
  intro t ht
  exact placedIn_tokens {} source t (List.mem_filter.1 ht).1

end Tokenizer
