import Tokenizer.Proofs.AsciiReading
import Tokenizer.Proofs.Grammar

/-!
Numbers as words. Each pattern of a number is read without a step back, and yet it finds the
longest word of its grammar wherever there is one, since the character after a part of a number
tells whether that part goes on. The same holds of readers that stand anywhere in any bytes.
-/
namespace Tokenizer

open CharClass Grammar
open scoped Computability

namespace Grammar

/-- Where a word goes on to be a longer one, it does so with a character of the class. -/
def GoesOnIn (l : CharLanguage) (p : Char → Bool) : Prop :=
  ∀ u d more, u ∈ l → u ++ d :: more ∈ l → p d = true

theorem goesOnIn_of_forall_mem {l : CharLanguage} {p : Char → Bool}
    (h : ∀ w ∈ l, ∀ c ∈ w, p c = true) : GoesOnIn l p := by
  intro u d more _ hlonger
  exact h _ hlonger d (by simp)

/-- Words stop in front of a text that starts outside of the class. -/
theorem GoesOnIn.eq_of_stop {l : CharLanguage} {p : Char → Bool} (h : GoesOnIn l p)
    {u x t : List Char} (hu : u ∈ l) (hx : x ∈ l) (hux : u <+: x) (hxt : x <+: u ++ t)
    (ht : t.head?.any p = false) : x = u := by
  obtain ⟨more, rfl⟩ := hux
  cases more with
  | nil => simp
  | cons d more =>
    obtain ⟨rest, rfl⟩ := (List.prefix_append_right_inj u).1 hxt
    have hd := h u d more hu hx
    simp [hd] at ht

/-! ### Groups of digits -/

def digitGroup (p : Char → Bool) : CharLanguage := plus (char '_') * plus (letter p)

theorem exists_of_mem_digitGroup {p : Char → Bool} {w : List Char} (h : w ∈ digitGroup p) :
    ∃ us ds, w = us ++ ds ∧ us ≠ [] ∧ (∀ c ∈ us, c = '_') ∧ ds ≠ [] ∧ ∀ c ∈ ds, p c = true := by
  obtain ⟨us, hus, ds, hds, rfl⟩ := Language.mem_mul.1 h
  obtain ⟨hne, hus⟩ := mem_plus_letter.1 hus
  obtain ⟨hne', hds⟩ := mem_plus_letter.1 hds
  exact ⟨us, ds, rfl, hne, fun c hc => by simpa using hus c hc, hne', hds⟩

theorem head?_digitGroup {p : Char → Bool} {w : List Char} (h : w ∈ digitGroup p) :
    w.head? = some '_' := by
  obtain ⟨us, ds, rfl, hne, hus, -, -⟩ := exists_of_mem_digitGroup h
  obtain ⟨c, us, rfl⟩ := List.exists_cons_of_ne_nil hne
  rw [hus c List.mem_cons_self]
  rfl

/-- After its underscores a group goes on with digits only. -/
theorem goesOnIn_digitGroup {p : Char → Bool} (hp : p '_' = false) :
    GoesOnIn (digitGroup p) p := by
  intro u d more hu hlonger
  obtain ⟨us, ds, rfl, -, -, hne, hds⟩ := exists_of_mem_digitGroup hu
  obtain ⟨us', ds', heq, -, hus', -, hds'⟩ := exists_of_mem_digitGroup hlonger
  rcases List.append_eq_append_iff.1 heq with ⟨mid, hus, -⟩ | ⟨mid, -, hds⟩
  · -- the digits of the shorter group would be underscores
    obtain ⟨c, ds, rfl⟩ := List.exists_cons_of_ne_nil hne
    have hc := hds c List.mem_cons_self
    rw [hus' c (by simp [hus]), hp] at hc
    simp at hc
  · exact hds' d (by simp [hds])

end Grammar

namespace Pattern

/-! ### Words and the characters of a pattern -/

theorem forall_mem_of_mem_language {a : Pattern} {q : Char → Prop} (ha : a.ReadsOnly q)
    {w : List Char} (hw : w ∈ a.language) : ∀ c ∈ w, q c := by
  induction a generalizing w with
  | empty | notBefore _ =>
    obtain rfl := (Language.mem_one w).1 hw
    simp
  | one p stride =>
    obtain ⟨c, hc, rfl⟩ := hw
    simpa using ha c hc
  | run p =>
    intro c hc
    exact ha c (mem_kstar_letter.1 hw c hc)
  | run1 p =>
    intro c hc
    exact ha c ((mem_plus_letter.1 hw).2 c hc)
  | seq a b iha ihb =>
    obtain ⟨u, hu, v, hv, rfl⟩ := Language.mem_mul.1 hw
    exact List.forall_mem_append.2 ⟨iha ha.1 hu, ihb ha.2 hv⟩
  | orElse a b iha ihb =>
    rcases hw with hw | hw
    · exact iha ha.1 hw
    · exact ihb ha.2 hw
  | many unit ih =>
    obtain ⟨ws, rfl, hws⟩ := Language.mem_kstar.1 hw
    intro c hc
    obtain ⟨v, hv, hc⟩ := List.mem_flatten.1 hc
    exact ih ha (hws v hv) c hc

theorem nullable_of_nil_mem {a : Pattern} (h : [] ∈ a.language) : a.nullable = true := by
  induction a with
  | empty | run _ | notBefore _ | many _ => rfl
  | one p stride =>
    obtain ⟨c, -, hnil⟩ := h
    simp at hnil
  | run1 p => exact absurd rfl (mem_plus_letter.1 h).1
  | seq a b iha ihb =>
    obtain ⟨u, hu, v, hv, hnil⟩ := Language.mem_mul.1 h
    obtain ⟨rfl, rfl⟩ := List.append_eq_nil_iff.1 hnil
    simp [nullable, iha hu, ihb hv]
  | orElse a b iha ihb =>
    rcases h with h | h
    · simp [nullable, iha h]
    · simp [nullable, ihb h]

/-- Words start with characters that the pattern can start with. -/
theorem canStart_of_mem_language {a : Pattern} {c : Char} {w : List Char}
    (h : c :: w ∈ a.language) : a.canStart c = true := by
  induction a generalizing w with
  | empty | notBefore _ =>
    have hnil := (Language.mem_one _).1 h
    simp at hnil
  | one p stride =>
    obtain ⟨d, hd, heq⟩ := h
    obtain ⟨rfl, -⟩ := List.cons.inj heq
    exact hd
  | run p => exact mem_kstar_letter.1 h c List.mem_cons_self
  | run1 p => exact (mem_plus_letter.1 h).2 c List.mem_cons_self
  | seq a b iha ihb =>
    obtain ⟨u, hu, v, hv, heq⟩ := Language.mem_mul.1 h
    cases u with
    | nil =>
      rw [List.nil_append] at heq
      subst heq
      simp [canStart, nullable_of_nil_mem hu, ihb hv]
    | cons d u =>
      obtain ⟨rfl, -⟩ := List.cons.inj heq
      simp [canStart, iha hu]
  | orElse a b iha ihb =>
    rcases h with h | h
    · simp [canStart, iha h]
    · simp [canStart, ihb h]
  | many unit ih =>
    obtain ⟨ws, heq, hws⟩ := Language.mem_kstar_iff_exists_nonempty.1 h
    cases ws with
    | nil => simp at heq
    | cons v ws =>
      obtain ⟨hv, hv'⟩ := hws v List.mem_cons_self
      obtain ⟨d, v, rfl⟩ := List.exists_cons_of_ne_nil hv'
      obtain ⟨rfl, -⟩ := List.cons.inj heq
      exact ih hv

namespace FindsLongest

variable {a b : Pattern} {l : CharLanguage} {p : Char → Bool}

/-- One pattern after the other, where the second starts with no character that the first reads. -/
theorem seq_of_avoids (ha : FindsLongest a a.language) (hb : FindsLongest b b.language)
    (h : ∀ c, b.canStart c = true → a.avoids c = true) :
    FindsLongest (a ++ b) (a.language * b.language) := by
  apply ha.seq hb
  intro u hu v hv hne x hx rest hux hxr
  obtain ⟨c, v, rfl⟩ := List.exists_cons_of_ne_nil hne
  have havoids := readsOnly_of_avoids (h c (canStart_of_mem_language hv))
  have hgoes : GoesOnIn a.language (· != c) := by
    apply goesOnIn_of_forall_mem
    intro w hw d hd
    simpa using forall_mem_of_mem_language havoids hw d hd
  exact hgoes.eq_of_stop hu hx hux hxr (by simp)

/-- Repetition, if the first character of a unit stops the unit before. -/
theorem many (ha : FindsLongest a l) (hl : GoesOnIn l p)
    (hhead : ∀ v ∈ l, v ≠ [] ∧ v.head?.any p = false) : FindsLongest (.many a) l∗ where
  mem := by
    intro cs m h
    obtain rfl : repeated a.match? cs = m := by simpa [match?] using h
    exact repeated_mem_kstar ha.mem cs
  longest := by
    intro cs w hw hprefix
    obtain ⟨ws, rfl, hws⟩ := Language.mem_kstar.1 hw
    clear hw
    induction ws generalizing cs with
    | nil => exact ⟨_, rfl, Nat.zero_le _⟩
    | cons u ws ih =>
      obtain ⟨hu, hws⟩ := List.forall_mem_cons.1 hws
      obtain ⟨rest, rfl⟩ := hprefix
      rw [List.flatten_cons, List.append_assoc]
      obtain ⟨x, hx, hle⟩ := ha.longest hu (List.prefix_append u (ws.flatten ++ rest))
      have hne : x.text ≠ [] := (hhead _ (ha.mem hx)).1
      suffices hmore : ∃ y, (Pattern.many a).match? x.rest = some y ∧
          (u ++ ws.flatten).length ≤ x.text.length + y.text.length by
        obtain ⟨y, hy, hlength⟩ := hmore
        refine ⟨x.append y, ?_, by simpa [Match.append] using hlength⟩
        rw [match?_many, hx]
        simp [hne, hy]
      cases ws with
      | nil => exact ⟨_, rfl, by simp only [List.flatten_nil, List.append_nil]; omega⟩
      | cons v ws =>
        have hv := hhead v (hws v List.mem_cons_self)
        have hstop : ((v :: ws).flatten ++ rest).head?.any p = false := by
          obtain ⟨c, v, rfl⟩ := List.exists_cons_of_ne_nil hv.1
          exact hv.2
        have hux : u <+: x.text :=
          List.prefix_of_prefix_length_le (List.prefix_append _ _) (text_prefix_of_match? hx) hle
        -- the first unit is `u`, so the rest starts with the second
        have hxu : x.text = u :=
          hl.eq_of_stop hu (ha.mem hx) hux (text_prefix_of_match? hx) hstop
        have hrest : x.rest = (v :: ws).flatten ++ rest := by
          have hsplit := a.match?_split hx
          rw [hxu] at hsplit
          exact List.append_cancel_left hsplit
        obtain ⟨y, hy, hlength⟩ := ih hws (List.prefix_append _ rest)
        rw [← hrest] at hy
        exact ⟨y, hy, by rw [hxu, List.length_append]; omega⟩

end FindsLongest

/-! ### Numbers -/

section
variable {p : Char → Bool}

/-- Underscores stand between groups of digits only, so they are no digits themselves. -/
theorem findsLongest_digits (hp : p '_' = false) : FindsLongest (digits p) (digits p).language := by
  have hgroup : FindsLongest (run1 (· == '_') ++ run1 p) (digitGroup p) := by
    refine (FindsLongest.run1 _).seq_of_avoids (.run1 p) ?_
    intro c hc
    have hpc : p c = true := by simpa [canStart, nullable] using hc
    have hne : c ≠ '_' := by
      rintro rfl
      simp [hp] at hpc
    simp [avoids, hne]
  have hgroups : FindsLongest (many (run1 (· == '_') ++ run1 p)) (digitGroup p)∗ := by
    apply hgroup.many (goesOnIn_digitGroup hp)
    intro v hv
    have hhead := head?_digitGroup hv
    refine ⟨?_, by simp [hhead, hp]⟩
    rintro rfl
    simp at hhead
  refine (FindsLongest.run1 p).seq_of_avoids hgroups ?_
  intro c hc
  obtain rfl : c = '_' := by simpa [canStart, nullable] using hc
  simp [avoids, hp]

end

theorem findsLongest_decimalDigits : FindsLongest decimalDigits decimalDigits.language :=
  findsLongest_digits rfl

theorem findsLongest_mark (cs : List Char) : FindsLongest (oneOf cs) (oneOf cs).language := .one _

theorem findsLongest_optional {a : Pattern} (h : FindsLongest a a.language) :
    FindsLongest (optional a) (optional a).language := h.optional

theorem findsLongest_signedDigits : FindsLongest signedDigits signedDigits.language := by
  refine (findsLongest_optional (findsLongest_mark ['+', '-'])).seq_of_avoids
    findsLongest_decimalDigits ?_
  intro c hc
  have hdigit : c.isDigit = true := by
    simpa [decimalDigits, digits, canStart, nullable] using hc
  have hne : ∀ d : Char, d.isDigit = false → c ≠ d := by
    rintro d hd rfl
    simp [hd] at hdigit
  simp [optional, oneOf, avoids, hne '+' rfl, hne '-' rfl]

/-- A part of a number stops in front of a mark that it does not hold. -/
theorem FindsLongest.seq_of_marks {a b : Pattern} (cs : List Char)
    (ha : FindsLongest a a.language) (hb : FindsLongest b b.language)
    (hcs : cs.all a.avoids = true) (hstart : ∀ c, b.canStart c = true → c ∈ cs) :
    FindsLongest (a ++ b) (a ++ b).language :=
  ha.seq_of_avoids hb fun c hc => List.all_eq_true.1 hcs c (hstart c hc)

theorem canStart_mark {cs : List Char} {b : Pattern} (c : Char)
    (h : (oneOf cs ++ b).canStart c = true) : c ∈ cs := by
  simpa [oneOf, canStart, nullable] using h

theorem canStart_optional {a : Pattern} {cs : List Char} (h : ∀ c, a.canStart c = true → c ∈ cs)
    (c : Char) (hc : (optional a).canStart c = true) : c ∈ cs :=
  h c (by simpa [optional, canStart] using hc)

theorem canStart_oneOf {cs : List Char} (c : Char) (h : (oneOf cs).canStart c = true) : c ∈ cs := by
  simpa [oneOf, canStart] using h

theorem findsLongest_scientificFloat : FindsLongest scientificFloat Grammar.scientificFloat := by
  have hend := (findsLongest_optional findsLongest_signedDigits).seq_of_marks ['f', 'F', 'd', 'D']
    (findsLongest_optional (findsLongest_mark _)) (by decide) (canStart_optional canStart_oneOf)
  have hmark := hend.letter_seq (['e', 'E'].contains ·)
  have hwhole := findsLongest_decimalDigits.seq_of_marks ['e', 'E'] hmark (by decide) canStart_mark
  have hassoc := hwhole.of_append_assoc.of_append_assoc
  rw [Grammar.scientificFloat, mul_assoc, mul_assoc]
  exact hassoc

theorem findsLongest_decimalFloat : FindsLongest decimalFloat Grammar.decimalFloat := by
  have hexponent : FindsLongest (exponentMark ++ signedDigits)
      (exponentMark ++ signedDigits).language := findsLongest_signedDigits.letter_seq _
  have hend := (findsLongest_optional hexponent).seq_of_marks ['f', 'F', 'd', 'D']
    (findsLongest_optional (findsLongest_mark _)) (by decide) (canStart_optional canStart_oneOf)
  have hdigits := findsLongest_decimalDigits.seq_of_marks ['e', 'E', 'f', 'F', 'd', 'D'] hend
    (by decide) ?_
  · have hpoint := hdigits.letter_seq (· == '.')
    have hwhole := findsLongest_decimalDigits.seq_of_marks ['.'] hpoint (by decide) ?_
    · have hassoc := hwhole.of_append_assoc.of_append_assoc.of_append_assoc
      rw [Grammar.decimalFloat, mul_assoc, mul_assoc, mul_assoc]
      exact hassoc
    · simp [canStart, nullable]
  · intro c hc
    have hmarks : ((c = 'e' ∨ c = 'E') ∨ (c = 'f' ∨ c = 'F' ∨ c = 'd' ∨ c = 'D')) := by
      simpa [optional, exponentMark, floatMark, oneOf, canStart, nullable] using hc
    simpa [or_assoc] using hmarks

theorem findsLongest_suffixedFloat : FindsLongest suffixedFloat Grammar.suffixedFloat :=
  findsLongest_decimalDigits.seq_of_marks ['f', 'F', 'd', 'D'] (findsLongest_mark _) (by decide)
    canStart_oneOf

theorem findsLongest_integer : FindsLongest integer Grammar.integer :=
  findsLongest_decimalDigits.seq_of_marks ['l', 'L'] (findsLongest_optional (findsLongest_mark _))
    (by decide) (canStart_optional canStart_oneOf)

/-- Digits of a class, and perhaps the mark of a long integer. -/
theorem findsLongest_longDigits {p : Char → Bool} (hp : p '_' = false)
    (hlong : ['l', 'L'].any p = false) :
    FindsLongest (digits p ++ optional longMark) (digits p ++ optional longMark).language := by
  refine (findsLongest_digits hp).seq_of_marks ['l', 'L']
    (findsLongest_optional (findsLongest_mark _)) ?_ (canStart_optional canStart_oneOf)
  rw [List.all_eq_true]
  intro c hc
  have hne : c ≠ '_' := by
    rintro rfl
    simp at hc
  simp [digits, avoids, List.any_eq_false.1 hlong c hc, hne]

theorem findsLongest_octalNumber : FindsLongest octalNumber Grammar.octalNumber := by
  have hdigits := findsLongest_longDigits (p := isOctalDigit) rfl (by decide)
  have hassoc := (hdigits.letter_seq (· == '0')).of_append_assoc
  rw [Grammar.octalNumber, mul_assoc]
  exact hassoc

/-- A zero, a mark of the base, and digits of the base. -/
theorem findsLongest_markedDigits {p : Char → Bool} (hp : p '_' = false)
    (hlong : ['l', 'L'].any p = false) (marks : List Char) :
    FindsLongest (char '0' ++ oneOf marks ++ digits p ++ optional longMark)
      (Grammar.char '0' * Grammar.oneOf marks * Grammar.digits p * maybe Grammar.longMark) := by
  have hmark := (findsLongest_longDigits hp hlong).letter_seq (marks.contains ·)
  have hassoc := (hmark.letter_seq (· == '0')).of_append_assoc.of_append_assoc
  rw [mul_assoc, mul_assoc]
  exact hassoc

theorem findsLongest_hexNumber : FindsLongest hexNumber Grammar.hexNumber :=
  findsLongest_markedDigits rfl (by decide) ['x', 'X']

theorem findsLongest_binaryNumber : FindsLongest binaryNumber Grammar.binaryNumber :=
  findsLongest_markedDigits rfl (by decide) ['b', 'B']

end Pattern

/-! ### Longest words -/

/-- Of the words of a language that a text starts with, `w` is the longest. -/
structure LongestWord (l : CharLanguage) (cs w : List Char) : Prop where
  mem : w ∈ l
  starts : w <+: cs
  longest : ∀ x ∈ l, x <+: cs → x.length ≤ w.length

theorem LongestWord.unique {l : CharLanguage} {cs v w : List Char} (hv : LongestWord l cs v)
    (hw : LongestWord l cs w) : v = w := by
  have hvw := hw.longest v hv.mem hv.starts
  have hwv := hv.longest w hw.mem hw.starts
  exact (List.prefix_of_prefix_length_le hv.starts hw.starts hvw).eq_of_length (by omega)

namespace Pattern.FindsLongest

variable {a : Pattern} {l : CharLanguage}

theorem isSome_iff (h : FindsLongest a l) (cs : List Char) :
    (a.match? cs).isSome = true ↔ ∃ w ∈ l, w <+: cs := by
  rw [Option.isSome_iff_exists]
  constructor
  · rintro ⟨m, hm⟩
    exact ⟨m.text, h.mem hm, text_prefix_of_match? hm⟩
  · rintro ⟨w, hw, hprefix⟩
    obtain ⟨m, hm, -⟩ := h.longest hw hprefix
    exact ⟨m, hm⟩

theorem longestWord (h : FindsLongest a l) {cs : List Char} {m : Match}
    (hm : a.match? cs = some m) : LongestWord l cs m.text where
  mem := h.mem hm
  starts := text_prefix_of_match? hm
  longest := by
    intro x hx hprefix
    obtain ⟨n, hn, hle⟩ := h.longest hx hprefix
    obtain rfl : m = n := Option.some.inj (hm.symm.trans hn)
    exact hle

end Pattern.FindsLongest

/-- The pattern matches a text exactly if it starts with a word, and then reads the longest. -/
def Pattern.MatchesLongest (a : Pattern) (l : CharLanguage) : Prop :=
  ∀ cs, ((a.match? cs).isSome = true ↔ ∃ w ∈ l, w <+: cs) ∧
    ∀ m, a.match? cs = some m → LongestWord l cs m.text ∧ m.text ++ m.rest = cs

/--
The same of readers at any place in any bytes: the reader moves exactly if the bytes ahead start
with those of a word, and then by the width of the longest such word.
-/
def Pattern.ReadsLongest (a : Pattern) (l : CharLanguage) : Prop :=
  ∀ r : ByteReader, ((a.read? r).isSome = true ↔ ∃ w ∈ l, Text.bytes w <+: r.ahead) ∧
    ∀ next, a.read? r = some next →
      ∃ w ∈ l, Text.bytes w <+: r.ahead ∧ next = r.move (Text.width w) ∧
        ∀ x ∈ l, Text.bytes x <+: r.ahead → Text.width x ≤ Text.width w

theorem Pattern.FindsLongest.matchesLongest {a : Pattern} {l : CharLanguage}
    (h : FindsLongest a l) : a.MatchesLongest l := by
  intro cs
  refine ⟨h.isSome_iff cs, ?_⟩
  intro m hm
  exact ⟨h.longestWord hm, a.match?_split hm⟩

/-- Words within ASCII are found in bytes as in the characters that the bytes number. -/
theorem Pattern.FindsLongest.readsLongest {a : Pattern} {l : CharLanguage} (h : FindsLongest a l)
    (ha : a.EveryClass Ascii) (hl : ∀ w ∈ l, ∀ c ∈ w, c.toNat < 128) : a.ReadsLongest l := by
  intro r
  have hbytes {w : List Char} (hw : w ∈ l) : Text.bytes w <+: r.ahead ↔ w <+: seen r :=
    Text.bytes_prefix_iff (hl w hw) r.ahead
  rw [read?_of_ascii ha]
  constructor
  · rw [Option.isSome_map, h.isSome_iff]
    constructor
    · rintro ⟨w, hw, hprefix⟩
      exact ⟨w, hw, (hbytes hw).2 hprefix⟩
    · rintro ⟨w, hw, hprefix⟩
      exact ⟨w, hw, (hbytes hw).1 hprefix⟩
  · intro next hnext
    obtain ⟨m, hm, rfl⟩ := Option.map_eq_some_iff.1 hnext
    have hword := h.longestWord hm
    refine ⟨m.text, hword.mem, (hbytes hword.mem).2 hword.starts, ?_, ?_⟩
    · rw [Text.width_of_ascii (hl _ hword.mem)]
    · intro x hx hprefix
      rw [Text.width_of_ascii (hl x hx), Text.width_of_ascii (hl _ hword.mem)]
      exact hword.longest x hx ((hbytes hx).1 hprefix)

theorem everyClass_ascii_numberRules : ∀ rule ∈ numberRules, rule.pattern.EveryClass Ascii := by
  have havoids : ∀ rule ∈ numberRules, rule.pattern.avoids '\u0080' = true := by decide
  intro rule hrule
  exact Pattern.everyClass_ascii (Pattern.uniform_numberRules rule hrule) (havoids rule hrule)

/-- The grammars of the rules of numbers, in the order of the rules. -/
def numberLanguages : List CharLanguage :=
  [Grammar.scientificFloat, Grammar.decimalFloat, Grammar.hexNumber, Grammar.octalNumber,
    Grammar.binaryNumber, Grammar.suffixedFloat, Grammar.integer]

theorem map_language_numberRules :
    numberRules.map (fun rule => rule.pattern.language) = numberLanguages := rfl

theorem findsLongest_numberRules :
    ∀ rule ∈ numberRules, rule.pattern.FindsLongest rule.pattern.language := by
  simp only [numberRules, List.forall_mem_cons]
  exact ⟨Pattern.findsLongest_scientificFloat, Pattern.findsLongest_decimalFloat,
    Pattern.findsLongest_hexNumber, Pattern.findsLongest_octalNumber,
    Pattern.findsLongest_binaryNumber, Pattern.findsLongest_suffixedFloat,
    Pattern.findsLongest_integer, by simp⟩

/--
Each rule of numbers reads exactly the words of its own grammar, and of those at the front of a
text, or ahead in any bytes, the longest.
-/
theorem numberRules_read_longest_words :
    List.Forall₂ (fun rule l => rule.pattern.MatchesLongest l ∧ rule.pattern.ReadsLongest l)
      numberRules numberLanguages := by
  rw [← map_language_numberRules, List.forall₂_map_right_iff, List.forall₂_same]
  intro rule hrule
  have hfinds := findsLongest_numberRules rule hrule
  have hascii := everyClass_ascii_numberRules rule hrule
  refine ⟨hfinds.matchesLongest, hfinds.readsLongest hascii ?_⟩
  intro w hw
  exact Pattern.forall_mem_of_mem_language (Pattern.readsOnly_ascii hascii) hw

end Tokenizer
