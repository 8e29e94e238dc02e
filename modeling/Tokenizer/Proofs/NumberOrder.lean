import Mathlib.Tactic.IntervalCases
import Tokenizer.Proofs.Number
import Tokenizer.Proofs.Reading

/-!
The order of the rules of numbers. All of them start with decimal digits, and the character after
those digits tells which rule goes on the furthest, so the first rule that matches is one that
reads the most. Only a leading zero breaks this: a number with octal digits after its zero is read
as octal even where decimal digits or the mark of a floating-point number go on.
-/
namespace Tokenizer

open CharClass Grammar
open scoped Computability

namespace Grammar

theorem digitGroup_mono {p q : Char → Bool} (h : ∀ c, p c = true → q c = true) {w : List Char}
    (hw : w ∈ digitGroup p) : w ∈ digitGroup q := by
  obtain ⟨mark, hmark, group, hgroup, rfl⟩ := Language.mem_mul.1 hw
  obtain ⟨hne, hp⟩ := mem_plus_letter.1 hgroup
  exact Language.append_mem_mul hmark (mem_plus_letter.2 ⟨hne, fun c hc => h c (hp c hc)⟩)

/-- Octal digits after a zero are decimal digits. -/
theorem decimal_of_octal {w : List Char} (h : w ∈ char '0' * digits isOctalDigit) :
    w ∈ decimal := by
  have hdigit : ∀ c, isOctalDigit c = true → c.isDigit = true := by
    intro c hc
    simp only [isOctalDigit, Char.isDigit, Bool.and_eq_true, decide_eq_true_eq, Char.le_def,
      UInt32.le_iff_toNat_le] at hc ⊢
    exact ⟨hc.1, hc.2.trans (by decide)⟩
  obtain ⟨v, hv, rfl⟩ := mem_char_mul.1 h
  obtain ⟨first, hfirst, more, hmore, rfl⟩ := Language.mem_mul.1 hv
  obtain ⟨-, hall⟩ := mem_plus_letter.1 hfirst
  have hzero : '0' :: first ∈ plus (letter Char.isDigit) := by
    refine mem_plus_letter.2 ⟨by simp, ?_⟩
    exact List.forall_mem_cons.2 ⟨rfl, fun c hc => hdigit c (hall c hc)⟩
  have hgroups : digitGroup isOctalDigit ≤ digitGroup Char.isDigit :=
    fun _ hw => digitGroup_mono hdigit hw
  exact Language.append_mem_mul hzero (kstar_mono hgroups hmore)

end Grammar

namespace Pattern

variable {w groups after : List Char} {m : Match} {a : Pattern} {marks : List Char}

/-- Past the decimal digits of a text, the pattern goes on with one of the marks only. -/
def NeedsMark (a : Pattern) (marks : List Char) : Prop :=
  ∀ {w groups after m}, decimalDigits.match? w = some ⟨groups, after⟩ → a.match? w = some m →
    groups.length < m.text.length → ∃ c ∈ marks, after.head? = some c

theorem exists_tail_of_match? (hg : decimalDigits.match? w = some ⟨groups, after⟩)
    (h : (decimalDigits ++ a).match? w = some m) :
    ∃ n, a.match? after = some n ∧ m = ⟨groups ++ n.text, n.rest⟩ := by
  obtain ⟨x, hx, n, hn, rfl⟩ := match?_append_eq_some.1 h
  obtain rfl : ⟨groups, after⟩ = x := Option.some.inj (hg.symm.trans hx)
  exact ⟨n, hn, rfl⟩

theorem needsMark_of_canStart (h : ∀ c, a.canStart c = true → c ∈ marks) :
    NeedsMark (decimalDigits ++ a) marks := by
  intro w groups after m hg hm hlt
  obtain ⟨n, hn, rfl⟩ := exists_tail_of_match? hg hm
  have hne : n.text ≠ [] := by
    rintro hnil
    simp [hnil] at hlt
  cases after with
  | nil =>
    have hsplit := a.match?_split hn
    simp [hne] at hsplit
  | cons c rest => exact ⟨c, h c (a.canStart_of_match? hn hne), rfl⟩

theorem lt_length_of_nullable (hnull : a.nullable = false)
    (hg : decimalDigits.match? w = some ⟨groups, after⟩)
    (h : (decimalDigits ++ a).match? w = some m) : groups.length < m.text.length := by
  obtain ⟨n, hn, rfl⟩ := exists_tail_of_match? hg h
  have hne : n.text ≠ [] := by
    intro hnil
    simp [a.nullable_of_match? hn hnil] at hnull
  have hpos := List.length_pos_iff.2 hne
  simp only [List.length_append]
  omega

/-! ### The rules one by one -/

theorem scientificFloat_match? (cs : List Char) :
    scientificFloat.match? cs = (decimalDigits ++
      (exponentMark ++ (optional signedDigits ++ optional floatMark))).match? cs := by
  simp only [scientificFloat, match?_append_assoc]

theorem decimalFloat_match? (cs : List Char) :
    decimalFloat.match? cs = (decimalDigits ++ (char '.' ++ (decimalDigits ++
      (optional (exponentMark ++ signedDigits) ++ optional floatMark)))).match? cs := by
  simp only [decimalFloat, match?_append_assoc]

theorem needsMark_scientificFloat : NeedsMark scientificFloat ['e', 'E'] := by
  intro w groups after m hg hm
  rw [scientificFloat_match?] at hm
  exact needsMark_of_canStart canStart_mark hg hm

theorem needsMark_decimalFloat : NeedsMark decimalFloat ['.'] := by
  intro w groups after m hg hm
  rw [decimalFloat_match?] at hm
  exact needsMark_of_canStart (by simp [char, canStart, nullable]) hg hm

theorem needsMark_suffixedFloat : NeedsMark suffixedFloat ['f', 'F', 'd', 'D'] :=
  needsMark_of_canStart canStart_oneOf

theorem needsMark_integer : NeedsMark integer ['l', 'L'] :=
  needsMark_of_canStart (canStart_optional canStart_oneOf)

/-- A mark of the base stands after the zero, which then is the only decimal digit. -/
theorem of_match?_markedDigits {p : Char → Bool}
    (hmarks : marks.all decimalDigits.avoids = true)
    (hg : decimalDigits.match? w = some ⟨groups, after⟩)
    (h : (char '0' ++ oneOf marks ++ digits p ++ optional longMark).match? w = some m) :
    groups = ['0'] ∧ 1 < m.text.length ∧ ∃ c ∈ marks, after.head? = some c := by
  simp only [match?_append_assoc] at h
  obtain ⟨_, hx, y, hy, rfl⟩ := match?_append_eq_some.1 h
  obtain ⟨rest, rfl, rfl⟩ := match?_char_eq_some.1 hx
  obtain ⟨_, hz, y, -, rfl⟩ := match?_append_eq_some.1 hy
  obtain ⟨c, rest, rfl, hc, rfl⟩ := match?_oneOf_eq_some.1 hz
  have hzero : decimalDigits.match? ['0'] = some ⟨['0'], []⟩ := by
    have hfirst : (run1 Char.isDigit).match? ['0'] = some ⟨['0'], []⟩ := rfl
    rw [decimalDigits, digits, match?_append, hfirst, Option.bind_some, match?_many]
    simp [Match.append]
  have hdigits := decimalDigits.match?_append_of_avoids (List.all_eq_true.1 hmarks c hc) ['0'] rest
  rw [hzero] at hdigits
  obtain ⟨rfl, rfl⟩ : ['0'] = groups ∧ c :: rest = after := by
    simpa [Match.extend] using hdigits.symm.trans hg
  exact ⟨rfl, by simp [Match.append], c, hc, rfl⟩

theorem needsMark_markedDigits {p : Char → Bool}
    (hmarks : marks.all decimalDigits.avoids = true) :
    NeedsMark (char '0' ++ oneOf marks ++ digits p ++ optional longMark) marks :=
  fun hg hm _ => (of_match?_markedDigits hmarks hg hm).2.2

/-- A long mark is read where there is one. -/
theorem match?_optional_longMark (cs : List Char) :
    ∃ n, (optional longMark).match? cs = some n ∧
      (n.text = [] ∧ (∀ c ∈ ['l', 'L'], cs.head? ≠ some c) ∨
        ∃ c ∈ ['l', 'L'], n.text = [c] ∧ cs.head? = some c) := by
  have hor : (optional longMark).match? cs = (longMark.match? cs).or (some ⟨[], cs⟩) := rfl
  rw [hor]
  cases h : longMark.match? cs with
  | none =>
    refine ⟨_, rfl, .inl ⟨rfl, ?_⟩⟩
    intro c hc hhead
    obtain ⟨rest, rfl⟩ := List.head?_eq_some_iff.1 hhead
    have hsome : longMark.match? (c :: rest) = some ⟨[c], rest⟩ :=
      match?_oneOf_eq_some.2 ⟨c, rest, rfl, hc, rfl⟩
    simp [hsome] at h
  | some n =>
    obtain ⟨c, rest, rfl, hc, rfl⟩ := match?_oneOf_eq_some.1 h
    exact ⟨_, rfl, .inr ⟨c, hc, rfl, rfl⟩⟩

/-- The zero and the octal digits of an octal number, before its mark. -/
theorem findsLongest_octalDigits :
    FindsLongest (char '0' ++ digits isOctalDigit) (Grammar.char '0' * Grammar.digits isOctalDigit) :=
  (findsLongest_digits rfl).letter_seq _

theorem exists_of_match?_octalNumber (h : octalNumber.match? w = some m) :
    ∃ octal rest, LongestWord (Grammar.char '0' * Grammar.digits isOctalDigit) w octal ∧
      w = octal ++ rest ∧ (m.text = octal ∧ (∀ c ∈ ['l', 'L'], rest.head? ≠ some c) ∨
        ∃ c ∈ ['l', 'L'], m.text = octal ++ [c] ∧ rest.head? = some c) := by
  obtain ⟨x, hx, y, hy, rfl⟩ := match?_append_eq_some.1 h
  obtain ⟨n, hn, hmark⟩ := match?_optional_longMark x.rest
  obtain rfl : y = n := Option.some.inj (hy.symm.trans hn)
  refine ⟨x.text, x.rest, findsLongest_octalDigits.longestWord hx, (match?_split _ hx).symm, ?_⟩
  rcases hmark with ⟨hnil, hhead⟩ | ⟨c, hc, hone, hhead⟩
  · exact .inl ⟨by simp [Match.append, hnil], hhead⟩
  · exact .inr ⟨c, hc, by simp [Match.append, hone], hhead⟩

theorem octal_prefix_groups (hg : decimalDigits.match? w = some ⟨groups, after⟩) {octal : List Char}
    (ho : LongestWord (Grammar.char '0' * Grammar.digits isOctalDigit) w octal) :
    octal <+: groups := by
  have hgroups := findsLongest_decimalDigits.longestWord hg
  have hle := hgroups.longest octal (decimal_of_octal ho.mem) ho.starts
  exact List.prefix_of_prefix_length_le ho.starts hgroups.starts hle

theorem needsMark_octalNumber : NeedsMark octalNumber ['l', 'L'] := by
  intro w groups after m hg hm hlt
  obtain ⟨octal, rest, ho, rfl, hmark⟩ := exists_of_match?_octalNumber hm
  have hprefix := octal_prefix_groups hg ho
  have hle := hprefix.length_le
  rcases hmark with ⟨htext, -⟩ | ⟨c, hc, htext, hhead⟩
  · rw [htext] at hlt
    omega
  · -- the digits are all octal, so both kinds of digits stop at the mark
    rw [htext, List.length_append, List.length_singleton] at hlt
    obtain rfl : octal = groups := hprefix.eq_of_length (by omega)
    have hsplit := decimalDigits.match?_split hg
    rw [← List.append_cancel_left hsplit] at hhead
    exact ⟨c, hc, hhead⟩

end Pattern

/-! ### The first rule that matches -/

/-- The marks that the rules of numbers go on with, in the order of the rules. -/
def numberMarks : List (List Char) :=
  [['e', 'E'], ['.'], ['x', 'X'], ['l', 'L'], ['b', 'B'], ['f', 'F', 'd', 'D'], ['l', 'L']]

theorem needsMark_numberRules :
    List.Forall₂ (fun rule marks => rule.pattern.NeedsMark marks) numberRules numberMarks := by
  simp only [numberRules, numberMarks, List.forall₂_cons]
  exact ⟨Pattern.needsMark_scientificFloat, Pattern.needsMark_decimalFloat,
    Pattern.needsMark_markedDigits (by decide), Pattern.needsMark_octalNumber,
    Pattern.needsMark_markedDigits (by decide), Pattern.needsMark_suffixedFloat,
    Pattern.needsMark_integer, .nil⟩

/-- No rule of numbers matches more of the text. -/
def LongestNumber (w : List Char) (m : Match) : Prop :=
  ∀ rule ∈ numberRules, ∀ n, rule.pattern.match? w = some n → n.text.length ≤ m.text.length

/--
A zero and octal digits stand in front, no exponent mark and no point follow the decimal digits,
and yet these go on after the octal ones, or with the mark of a floating-point number.
-/
structure OctalStopsShort (w : List Char) : Prop where
  octal : ∃ d rest, w = '0' :: d :: rest ∧ isOctalDigit d = true
  not_scientific : Pattern.scientificFloat.match? w = none
  not_decimal : Pattern.decimalFloat.match? w = none
  goesOn : ∃ groups octal after, LongestWord Grammar.decimal w groups ∧
    LongestWord (Grammar.char '0' * Grammar.digits isOctalDigit) w octal ∧ w = groups ++ after ∧
      (octal.length < groups.length ∨ ∃ c ∈ ['f', 'F', 'd', 'D'], after.head? = some c)

section
variable {w groups after : List Char} {m : Match}

/-- A mark other than the long one belongs to one rule only. -/
theorem longestNumber_of_mark (hg : Pattern.decimalDigits.match? w = some ⟨groups, after⟩)
    {rule : Rule} (hrule : rule ∈ numberRules) (hm : rule.pattern.match? w = some m)
    (hlt : groups.length < m.text.length) {marks : List Char}
    (hneeds : rule.pattern.NeedsMark marks) (hlong : marks.any ['l', 'L'].contains = false) :
    LongestNumber w m := by
  obtain ⟨-, htable⟩ := List.forall₂_iff_get.1 needsMark_numberRules
  have hdisjoint : ∀ i j : Fin 7, i = j ∨ ((numberMarks.get i).filter fun c =>
      (numberMarks.get j).contains c).all ['l', 'L'].contains = true := by decide
  intro other hother n hn
  by_contra hshort
  obtain ⟨c, hc, hhead⟩ := hneeds hg hm hlt
  obtain ⟨i, rfl⟩ := List.get_of_mem hrule
  obtain ⟨j, rfl⟩ := List.get_of_mem hother
  obtain ⟨d, hd, hheadi⟩ := htable i i.2 i.2 hg hm hlt
  obtain ⟨e, he, hheadj⟩ := htable j j.2 j.2 hg hn (by omega)
  obtain rfl : c = d := Option.some.inj (hhead.symm.trans hheadi)
  obtain rfl : c = e := Option.some.inj (hhead.symm.trans hheadj)
  rcases hdisjoint i j with rfl | hshared
  · obtain rfl : m = n := Option.some.inj (hm.symm.trans hn)
    omega
  · have hmark := List.all_eq_true.1 hshared c (List.mem_filter.2 ⟨hd, List.contains_iff_mem.2 he⟩)
    exact List.any_eq_false.1 hlong c hc hmark

/-! ### Octal numbers -/

theorem exists_of_mem_octal {octal : List Char}
    (h : octal ∈ Grammar.char '0' * Grammar.digits isOctalDigit) :
    ∃ d rest, octal = '0' :: d :: rest ∧ isOctalDigit d = true := by
  obtain ⟨v, hv, rfl⟩ := mem_char_mul.1 h
  obtain ⟨first, hfirst, more, -, rfl⟩ := Language.mem_mul.1 hv
  obtain ⟨hne, hall⟩ := mem_plus_letter.1 hfirst
  obtain ⟨d, first, rfl⟩ := List.exists_cons_of_ne_nil hne
  exact ⟨d, first ++ more, rfl, hall d List.mem_cons_self⟩

theorem not_octalStopsShort_of_misses (h : Pattern.octalNumber.Misses w) : ¬OctalStopsShort w := by
  rintro ⟨-, -, -, -, octal, -, -, ho, -⟩
  have hword : octal ∈ Grammar.octalNumber := by
    rw [← List.append_nil octal]
    exact Language.append_mem_mul ho.mem (.inr rfl)
  obtain ⟨d, rest, hoctal, -⟩ := exists_of_mem_octal ho.mem
  exact Pattern.findsLongest_octalNumber.not_prefix h hword (by simp [hoctal]) ho.starts

/-- Before the end of the decimal digits no long mark ends an octal number. -/
theorem text_eq_octal (hg : Pattern.decimalDigits.match? w = some ⟨groups, after⟩)
    (hm : Pattern.octalNumber.match? w = some m) {octal : List Char}
    (ho : LongestWord (Grammar.char '0' * Grammar.digits isOctalDigit) w octal)
    (hlt : octal.length < groups.length) : m.text = octal := by
  obtain ⟨octal', rest, ho', hw, hmark⟩ := Pattern.exists_of_match?_octalNumber hm
  obtain rfl := ho.unique ho'
  rcases hmark with ⟨htext, -⟩ | ⟨c, hc, -, hhead⟩
  · exact htext
  · obtain ⟨more, rfl⟩ := Pattern.octal_prefix_groups hg ho
    have hsplit := Pattern.decimalDigits.match?_split hg
    rw [hw, List.append_assoc] at hsplit
    have hrest := List.append_cancel_left hsplit
    have havoids : ['l', 'L'].all Pattern.decimalDigits.avoids = true := by decide
    cases more with
    | nil => simp at hlt
    | cons d more =>
      obtain rfl : d = c := by simpa [← hrest] using hhead
      have hd := List.all_eq_true.1 havoids d hc
      have hne := Pattern.forall_mem_of_match? (Pattern.readsOnly_of_avoids hd) hg d
      simp at hne

/-- Where the octal digits stop short, another rule of numbers would read more. -/
theorem exists_longer_of_octalStopsShort
    (hg : Pattern.decimalDigits.match? w = some ⟨groups, after⟩)
    (hm : Pattern.octalNumber.match? w = some m) (h : OctalStopsShort w) :
    ∃ n, (Pattern.suffixedFloat.match? w = some n ∨ Pattern.integer.match? w = some n) ∧
      m.text.length < n.text.length := by
  have hgroups := Pattern.findsLongest_decimalDigits.longestWord hg
  obtain ⟨groups', octal, after', hgroups', ho, rfl, hon⟩ := h.goesOn
  obtain rfl := hgroups.unique hgroups'
  obtain rfl := List.append_cancel_left (Pattern.decimalDigits.match?_split hg)
  rcases hon with hlt | ⟨c, hc, hhead⟩
  · have hlt : octal.length < groups.length := hlt
    have hword : groups ∈ Grammar.integer := by
      rw [← List.append_nil groups]
      exact Language.append_mem_mul hgroups.mem (.inr rfl)
    obtain ⟨n, hn, hle⟩ := Pattern.findsLongest_integer.longest hword hgroups.starts
    have htext := text_eq_octal hg hm ho hlt
    exact ⟨n, .inr hn, by rw [htext]; omega⟩
  · obtain ⟨rest, rfl⟩ := List.head?_eq_some_iff.1 hhead
    have hword : groups ++ [c] ∈ Grammar.suffixedFloat :=
      Language.append_mem_mul hgroups.mem ⟨c, by simpa using hc, rfl⟩
    obtain ⟨n, hn, hle⟩ := Pattern.findsLongest_suffixedFloat.longest hword
      ⟨rest, List.append_assoc groups [c] rest⟩
    refine ⟨n, .inl hn, ?_⟩
    rw [List.length_append, List.length_singleton] at hle
    by_contra hlt
    -- the octal number would have to go on with a long mark
    obtain ⟨d, hd, hhead⟩ := Pattern.needsMark_octalNumber hg hm (by omega)
    obtain rfl : c = d := by simpa using hhead
    have hdisjoint : ['f', 'F', 'd', 'D'].any ['l', 'L'].contains = false := by decide
    exact List.any_eq_false.1 hdisjoint c hc (by simpa using hd)

/-- Where they do not, an octal number reads as much as any. -/
theorem longestNumber_of_octal (hg : Pattern.decimalDigits.match? w = some ⟨groups, after⟩)
    (hm : Pattern.octalNumber.match? w = some m)
    (hscientific : Pattern.scientificFloat.match? w = none)
    (hdecimal : Pattern.decimalFloat.match? w = none) (hhex : Pattern.hexNumber.Misses w)
    (h : ¬OctalStopsShort w) : LongestNumber w m := by
  have hgroups := Pattern.findsLongest_decimalDigits.longestWord hg
  have hsplit := Pattern.decimalDigits.match?_split hg
  obtain ⟨octal, rest, ho, hw, hmark⟩ := Pattern.exists_of_match?_octalNumber hm
  obtain ⟨d, v, hoctal, hd⟩ := exists_of_mem_octal ho.mem
  have hstops : ¬(octal.length < groups.length ∨ ∃ c ∈ ['f', 'F', 'd', 'D'], after.head? = some c) :=
    fun hon => h ⟨⟨d, v ++ rest, by rw [hw, hoctal]; rfl, hd⟩, hscientific, hdecimal,
      groups, octal, after, hgroups, ho, hsplit.symm, hon⟩
  obtain ⟨hge, hfloat⟩ := not_or.1 hstops
  obtain rfl : octal = groups := by
    have hprefix := Pattern.octal_prefix_groups hg ho
    exact hprefix.eq_of_length (by have := hprefix.length_le; omega)
  obtain rfl : after = rest := List.append_cancel_left (hsplit.trans hw)
  have hle : octal.length ≤ m.text.length := by
    rcases hmark with ⟨htext, -⟩ | ⟨c, -, htext, -⟩ <;> simp [htext]
  intro other hother n hn
  by_contra hshort
  simp only [numberRules, List.mem_cons, List.not_mem_nil, or_false] at hother
  rcases hother with rfl | rfl | rfl | rfl | rfl | rfl | rfl
  · simp [hscientific] at hn
  · simp [hdecimal] at hn
  · have hnil := hhex n hn
    simp [hnil] at hshort
  · obtain rfl : m = n := Option.some.inj (hm.symm.trans hn)
    omega
  · -- the binary mark would follow a zero that is alone
    obtain ⟨hzero, -⟩ := Pattern.of_match?_markedDigits (by decide) hg hn
    simp [hoctal] at hzero
  · exact hfloat (Pattern.needsMark_suffixedFloat hg hn (by omega))
  · obtain ⟨x, hx, rfl⟩ := Pattern.exists_tail_of_match? hg hn
    obtain ⟨y, hy, hlong⟩ := Pattern.match?_optional_longMark after
    obtain rfl : x = y := Option.some.inj (hx.symm.trans hy)
    -- the long mark is read by both or by neither
    rcases hlong with ⟨hnil, -⟩ | ⟨c, hc, hone, hhead⟩
    · simp only [hnil, List.append_nil] at hshort
      omega
    · rcases hmark with ⟨-, hno⟩ | ⟨e, -, htext, -⟩
      · exact hno c hc hhead
      · simp [hone, htext] at hshort

theorem match?_eq_none_of_misses {a : Pattern} (hnull : a.nullable = false) (h : a.Misses w) :
    a.match? w = none := by
  rw [Option.eq_none_iff_forall_ne_some]
  intro n hn
  simp [a.nullable_of_match? hn (h n hn)] at hnull

theorem longestNumber_of_first? (hg : Pattern.decimalDigits.match? w = some ⟨groups, after⟩)
    {rule : Rule} (h : Rule.first? numberRules w = some (rule, m))
    (hrule : rule.action ≠ .emit .octal) : LongestNumber w m ∧ ¬OctalStopsShort w := by
  obtain ⟨hmem, -⟩ := Rule.of_first?_eq_some h
  rcases Rule.first?_cons_cases h with ⟨hm, rfl⟩ | ⟨hscientific, h⟩
  · have htail := hm
    rw [Pattern.scientificFloat_match?] at htail
    refine ⟨longestNumber_of_mark hg hmem hm (Pattern.lt_length_of_nullable rfl hg htail)
      Pattern.needsMark_scientificFloat (by decide), ?_⟩
    intro hshort
    simp [hshort.not_scientific] at hm
  rcases Rule.first?_cons_cases h with ⟨hm, rfl⟩ | ⟨hdecimal, h⟩
  · have htail := hm
    rw [Pattern.decimalFloat_match?] at htail
    refine ⟨longestNumber_of_mark hg hmem hm (Pattern.lt_length_of_nullable rfl hg htail)
      Pattern.needsMark_decimalFloat (by decide), ?_⟩
    intro hshort
    simp [hshort.not_decimal] at hm
  rcases Rule.first?_cons_cases h with ⟨hm, rfl⟩ | ⟨hhex, h⟩
  · obtain ⟨hzero, hlt, d, hd, hhead⟩ := Pattern.of_match?_markedDigits (by decide) hg hm
    refine ⟨longestNumber_of_mark hg hmem hm (by simpa [hzero] using hlt)
      (Pattern.needsMark_markedDigits (by decide)) (by decide), ?_⟩
    rintro ⟨⟨e, rest, rfl, he⟩, -⟩
    have hsplit := Pattern.decimalDigits.match?_split hg
    obtain ⟨rest', rfl⟩ := List.head?_eq_some_iff.1 hhead
    obtain ⟨rfl, -⟩ : d = e ∧ _ := by simpa [hzero] using hsplit
    have hoctal : ['x', 'X'].any isOctalDigit = false := by decide
    exact List.any_eq_false.1 hoctal d hd he
  rcases Rule.first?_cons_cases h with ⟨-, rfl⟩ | ⟨hoctal, h⟩
  · exact absurd rfl hrule
  have hnot := not_octalStopsShort_of_misses hoctal
  refine ⟨?_, hnot⟩
  rcases Rule.first?_cons_cases h with ⟨hm, rfl⟩ | ⟨hbinary, h⟩
  · obtain ⟨hzero, hlt, -⟩ := Pattern.of_match?_markedDigits (by decide) hg hm
    exact longestNumber_of_mark hg hmem hm (by simpa [hzero] using hlt)
      (Pattern.needsMark_markedDigits (by decide)) (by decide)
  rcases Rule.first?_cons_cases h with ⟨hm, rfl⟩ | ⟨hsuffixed, h⟩
  · exact longestNumber_of_mark hg hmem hm (Pattern.lt_length_of_nullable rfl hg hm)
      Pattern.needsMark_suffixedFloat (by decide)
  rcases Rule.first?_cons_cases h with ⟨hm, rfl⟩ | ⟨-, h⟩
  · -- all other rules find nothing
    have hnone {a : Pattern} (hmiss : a.Misses w) : ∀ n, a.match? w = some n →
        n.text.length ≤ m.text.length := by
      intro n hn
      simp [hmiss n hn]
    simp only [LongestNumber, numberRules, List.forall_mem_cons]
    refine ⟨hnone hscientific, hnone hdecimal, hnone hhex, hnone hoctal, hnone hbinary,
      hnone hsuffixed, ?_, by simp⟩
    intro n hn
    obtain rfl : m = n := Option.some.inj (hm.symm.trans hn)
    exact Nat.le_refl _
  · simp [Rule.first?] at h

/-- If the first rule that matches is the octal one, it reads the most unless it stops short. -/
theorem longestNumber_iff_of_first?_octal
    (hg : Pattern.decimalDigits.match? w = some ⟨groups, after⟩) {rule : Rule}
    (h : Rule.first? numberRules w = some (rule, m)) (hrule : rule.action = .emit .octal) :
    Pattern.octalNumber.match? w = some m ∧ (LongestNumber w m ↔ ¬OctalStopsShort w) := by
  rcases Rule.first?_cons_cases h with ⟨-, rfl⟩ | ⟨hscientific, h⟩
  · simp at hrule
  rcases Rule.first?_cons_cases h with ⟨-, rfl⟩ | ⟨hdecimal, h⟩
  · simp at hrule
  rcases Rule.first?_cons_cases h with ⟨-, rfl⟩ | ⟨hhex, h⟩
  · simp at hrule
  rcases Rule.first?_cons_cases h with ⟨hm, rfl⟩ | ⟨-, h⟩
  · refine ⟨hm, ?_, ?_⟩
    · intro hlongest hshort
      obtain ⟨n, hn, hlt⟩ := exists_longer_of_octalStopsShort hg hm hshort
      have hle : n.text.length ≤ m.text.length := by
        rcases hn with hn | hn
        · exact hlongest ⟨"float.suffixed", .suffixedFloat, .emit .float, .stay⟩
            (by simp [numberRules]) n hn
        · exact hlongest ⟨"integer", .integer, .emit .integer, .stay⟩ (by simp [numberRules]) n hn
      omega
    · exact longestNumber_of_octal hg hm (match?_eq_none_of_misses rfl hscientific)
        (match?_eq_none_of_misses rfl hdecimal) hhex
  · obtain ⟨hmem, -⟩ := Rule.of_first?_eq_some h
    simp only [List.mem_cons, List.not_mem_nil, or_false] at hmem
    rcases hmem with rfl | rfl | rfl <;> simp at hrule

end

/-! ### The token that is read -/

/-- At a decimal digit, code is read by the rules of numbers. -/
theorem first?_rootRules_of_isDigit {c : Char} (hc : c.isDigit = true) (cs : List Char) :
    Rule.first? rootRules (c :: cs) = Rule.first? numberRules (c :: cs) := by
  have hfilter : rootRules.filter (·.pattern.canStart c) =
      numberRules.filter (·.pattern.canStart c) := by
    obtain ⟨hlo, hhi⟩ : 48 ≤ c.toNat ∧ c.toNat ≤ 57 := by
      simpa [Char.isDigit, UInt32.le_iff_toNat_le] using hc
    rw [← Char.ofNat_toNat c]
    generalize c.toNat = n at hlo hhi
    interval_cases n <;> rfl
  rw [← Rule.first?_filter_canStart rootRules, hfilter, Rule.first?_filter_canStart]

theorem exists_first?_numberRules {c : Char} (hc : c.isDigit = true) (cs : List Char) :
    ∃ rule m, Rule.first? numberRules (c :: cs) = some (rule, m) := by
  have hstarts : Pattern.integer.startsAt c = true := by
    simpa [Pattern.integer, Pattern.decimalDigits, Pattern.digits, Pattern.optional, Pattern.total]
      using hc
  cases h : Rule.first? numberRules (c :: cs) with
  | none =>
    have hnone := List.findSome?_eq_none_iff.1 h ⟨"integer", .integer, .emit .integer, .stay⟩
      (by simp [numberRules])
    exact absurd (Option.map_eq_none_iff.1 hnone) (Rule.match?_ne_none_of_startsAt hstarts cs)
  | some found => exact ⟨found.1, found.2, rfl⟩

/--
Where code goes on with a decimal digit, the token that is read is a number, and no rule of
numbers would read more, except exactly where octal digits stop short. There the token is an octal
number, and shorter than what would be read as a suffixed float or as an integer.
-/
theorem number_token_longest_unless_octalStopsShort (start : Nat) {modes : ModeStack}
    (hroot : modes.top = .root) {c : Char} (hc : c.isDigit = true) (cs : List Char) :
    ∃ rule ∈ numberRules, ∃ category m, rule.action = .emit category ∧
      rule.pattern.match? (c :: cs) = some m ∧
      (step start modes c cs).tokens = [⟨category, start, m.text⟩] ∧
      (LongestNumber (c :: cs) m ↔ ¬OctalStopsShort (c :: cs)) ∧
      (OctalStopsShort (c :: cs) → category = .octal ∧
        ∃ n, (Pattern.suffixedFloat.match? (c :: cs) = some n ∨
          Pattern.integer.match? (c :: cs) = some n) ∧ m.text.length < n.text.length) := by
  have hstarts : Pattern.decimalDigits.startsAt c = true := by
    simpa [Pattern.decimalDigits, Pattern.digits, Pattern.total] using hc
  obtain ⟨⟨groups, after⟩, hg, -⟩ := Pattern.exists_match?_of_startsAt hstarts cs
  obtain ⟨rule, m, hfirst⟩ := exists_first?_numberRules hc cs
  obtain ⟨hmem, hmatch⟩ := Rule.of_first?_eq_some hfirst
  obtain ⟨category, haction⟩ : ∃ category, rule.action = .emit category := by
    simp only [numberRules, List.mem_cons, List.not_mem_nil, or_false] at hmem
    rcases hmem with rfl | rfl | rfl | rfl | rfl | rfl | rfl <;> exact ⟨_, rfl⟩
  have htokens : (step start modes c cs).tokens = [⟨category, start, m.text⟩] := by
    have hstep : Rule.first? modes.top.rules (c :: cs) = some (rule, m) := by
      rw [hroot]
      exact (first?_rootRules_of_isDigit hc cs).trans hfirst
    rw [step_of_first? hstep]
    exact Step.tokens_of_emit rfl haction
  refine ⟨rule, hmem, category, m, haction, (Rule.match?_eq_some_iff.1 hmatch).1, htokens, ?_⟩
  by_cases hoctal : rule.action = .emit .octal
  · obtain ⟨hm, hiff⟩ := longestNumber_iff_of_first?_octal hg hfirst hoctal
    refine ⟨hiff, ?_⟩
    intro hshort
    obtain rfl : category = .octal := by simpa [haction] using hoctal
    exact ⟨rfl, exists_longer_of_octalStopsShort hg hm hshort⟩
  · obtain ⟨hlongest, hnot⟩ := longestNumber_of_first? hg hfirst hoctal
    exact ⟨iff_of_true hlongest hnot, fun hshort => absurd hshort hnot⟩

/-- An eight after octal digits is left to the next token. -/
theorem number_token_octal_before_eight :
    ({} : ModeStack).top = .root ∧ '0'.isDigit = true ∧ OctalStopsShort ['0', '7', '8'] ∧
      (step 0 {} '0' ['7', '8']).tokens = [⟨.octal, 0, ['0', '7']⟩] := by
  have htokens : (step 0 {} '0' ['7', '8']).tokens = [⟨.octal, 0, ['0', '7']⟩] := by
    decide +kernel
  have hinteger : Pattern.integer.match? ['0', '7', '8'] = some ⟨['0', '7', '8'], []⟩ := by
    decide +kernel
  have hroot : ({} : ModeStack).top = .root := rfl
  have hdigit : '0'.isDigit = true := rfl
  obtain ⟨rule, -, category, m, -, -, hm, hiff, -⟩ :=
    number_token_longest_unless_octalStopsShort 0 hroot hdigit ['7', '8']
  refine ⟨hroot, hdigit, ?_, htokens⟩
  by_contra hnot
  have hle := hiff.2 hnot ⟨"integer", .integer, .emit .integer, .stay⟩ (by simp [numberRules]) _
    hinteger
  obtain ⟨-, htext⟩ : category = .octal ∧ m.text = ['0', '7'] := by
    simpa using hm.symm.trans htokens
  simp [htext] at hle

end Tokenizer
