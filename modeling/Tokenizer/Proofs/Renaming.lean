import Mathlib.Data.List.Forall2
import Tokenizer.Highlight
import Tokenizer.Proofs.AsciiReading
import Tokenizer.Proofs.Partition
import Tokenizer.Proofs.Patch
import Tokenizer.Stream

/-!
Renaming characters. A scan does not tell a null character from the control after it, nor one
character beyond ASCII from another. Renaming such characters, with their widths kept, therefore
commutes with all that a scan does; only the texts of the tokens are renamed.
-/
namespace Tokenizer

/-- The class does not see that characters are renamed. -/
def Blind (f : Char → Char) (p : Char → Bool) : Prop := ∀ c, p (f c) = p c

/-! ### Patterns -/

def Match.rename (f : Char → Char) (m : Match) : Match := ⟨m.text.map f, m.rest.map f⟩

namespace Pattern

variable {f : Char → Char}

theorem repeated_map {unit : List Char → Option Match}
    (h : ∀ cs, unit (cs.map f) = (unit cs).map (Match.rename f)) (cs : List Char) :
    repeated unit (cs.map f) = (repeated unit cs).rename f := by
  fun_induction repeated unit cs with
  | case1 cs hnone =>
    rw [repeated, h, hnone]
    rfl
  | case2 cs m hsome hlt ih =>
    rw [repeated, h, hsome]
    simp only [Option.map_some, Match.rename, List.length_map, hlt, ↓reduceIte] at ih ⊢
    rw [ih]
    simp [Match.append]
  | case3 cs m hsome hlt =>
    rw [repeated, h, hsome]
    simp [Match.rename, hlt]

theorem head?_any_map {p : Char → Bool} (hp : Blind f p) (cs : List Char) :
    (cs.map f).head?.any p = cs.head?.any p := by
  cases cs with
  | nil => rfl
  | cons c cs => exact hp c

/-- A pattern none of whose classes sees the renaming matches the renamed text. -/
theorem match?_map {a : Pattern} (ha : a.EveryClass (Blind f)) (cs : List Char) :
    a.match? (cs.map f) = (a.match? cs).map (Match.rename f) := by
  induction a generalizing cs with
  | empty => rfl
  | one p stride =>
    cases cs with
    | nil => rfl
    | cons c cs =>
      have hc : p (f c) = p c := ha c
      cases hp : p c <;> simp [hc, hp, Match.rename]
  | run p =>
    have hp : p ∘ f = p := funext ha
    simp [match?, Match.rename, List.takeWhile_map, List.dropWhile_map, hp]
  | run1 p =>
    have hp : p ∘ f = p := funext ha
    rw [match?, match?, head?_any_map ha, List.takeWhile_map, List.dropWhile_map, hp]
    split <;> rfl
  | notBefore p =>
    have hhead := head?_any_map ha cs
    rw [match?_notBefore, match?_notBefore, hhead]
    split <;> rfl
  | seq a b iha ihb =>
    change (a ++ b).match? (cs.map f) = ((a ++ b).match? cs).map (Match.rename f)
    rw [match?_append, match?_append, iha ha.1]
    cases a.match? cs with
    | none => rfl
    | some m =>
      have hrest := ihb ha.2 m.rest
      simp only [Option.map_some, Option.bind_some, Match.rename] at hrest ⊢
      rw [hrest]
      cases b.match? m.rest <;> simp [Match.append, Match.rename]
  | orElse a b iha ihb =>
    rw [match?, match?, iha ha.1, ihb ha.2]
    cases a.match? cs <;> rfl
  | many unit ih =>
    rw [match?, match?, repeated_map (ih ha)]
    rfl

end Pattern

namespace Rule

variable {f : Char → Char}

theorem match?_map {rule : Rule} (h : rule.pattern.EveryClass (Blind f)) (cs : List Char) :
    rule.match? (cs.map f) = (rule.match? cs).map (Match.rename f) := by
  rw [match?, match?, Pattern.match?_map h]
  cases rule.pattern.match? cs with
  | none => rfl
  | some m => by_cases ht : m.text = [] <;> simp [Option.filter, Match.rename, ht]

theorem first?_map {rules : List Rule} (h : ∀ rule ∈ rules, rule.pattern.EveryClass (Blind f))
    (cs : List Char) :
    first? rules (cs.map f) = (first? rules cs).map fun found => (found.1, found.2.rename f) := by
  induction rules with
  | nil => rfl
  | cons rule rules ih =>
    obtain ⟨hrule, hrules⟩ := List.forall_mem_cons.1 h
    have hrest := ih hrules
    rw [first?, List.findSome?_cons, match?_map hrule, first?, List.findSome?_cons]
    cases rule.match? cs with
    | none => exact hrest
    | some m => rfl

end Rule

/-! ### Characters that are alike -/

/--
The characters may stand for each other: they are the null character and the control after it, or
both are beyond ASCII and equally wide.
-/
inductive CharAlike : Char → Char → Prop
  | same (c : Char) : CharAlike c c
  | ofNull : CharAlike '\x00' '\x01'
  | toNull : CharAlike '\x01' '\x00'
  | beyond {c d : Char} : 128 ≤ c.toNat → 128 ≤ d.toNat → c.utf8Size = d.utf8Size → CharAlike c d

namespace CharAlike

variable {c d : Char} (h : CharAlike c d)
include h

theorem utf8Size_eq : c.utf8Size = d.utf8Size := by
  cases h with
  | same | ofNull | toNull => rfl
  | beyond _ _ hsize => exact hsize

/-- A uniform class that holds both controls or neither does not tell the characters apart. -/
theorem class_eq {p : Char → Bool} (hp : Uniform p) (hcontrol : p '\x00' = p '\x01') :
    p c = p d := by
  cases h with
  | same => rfl
  | ofNull => exact hcontrol
  | toNull => exact hcontrol.symm
  | beyond hc hd _ => exact hp c d hc hd

/-- A character of ASCII that is none of the controls is alike to itself only. -/
theorem eq_of_ascii (hc : c.toNat < 128) (hnull : c ≠ '\x00') (hone : c ≠ '\x01') : c = d := by
  cases h with
  | same => rfl
  | ofNull => exact absurd rfl hnull
  | toNull => exact absurd rfl hone
  | beyond hle _ _ => omega

end CharAlike

instance Pattern.decidableEveryClass {q : (Char → Bool) → Prop} [DecidablePred q] :
    (a : Pattern) → Decidable (a.EveryClass q)
  | empty => .isTrue trivial
  | one p _ | run p | run1 p | notBefore p => inferInstanceAs (Decidable (q p))
  | seq a b | orElse a b =>
    have := decidableEveryClass (q := q) a
    have := decidableEveryClass (q := q) b
    inferInstanceAs (Decidable (a.EveryClass q ∧ b.EveryClass q))
  | many unit => decidableEveryClass unit

theorem Pattern.EveryClass.imp₂ {q r t : (Char → Bool) → Prop} (h : ∀ p, q p → r p → t p)
    {a : Pattern} (hq : a.EveryClass q) (hr : a.EveryClass r) : a.EveryClass t := by
  induction a with
  | empty => trivial
  | one p _ | run p | run1 p | notBefore p => exact h p hq hr
  | seq a b iha ihb | orElse a b iha ihb => exact ⟨iha hq.1 hr.1, ihb hq.2 hr.2⟩
  | many unit ih => exact ih hq hr

theorem everyClass_controls : ∀ mode ∈ Mode.all, ∀ rule ∈ mode.rules,
    rule.pattern.EveryClass fun p => p '\x00' = p '\x01' := by
  decide +kernel

/-- The renaming puts alike characters in each other's place. -/
def Unseen (f : Char → Char) : Prop := ∀ c, CharAlike c (f c)

section
variable {f : Char → Char} (hf : Unseen f)
include hf

theorem Unseen.everyClass_rules (mode : Mode) :
    ∀ rule ∈ mode.rules, rule.pattern.EveryClass (Blind f) := by
  intro rule hmem
  have huniform := Pattern.uniform_rules mode rule hmem
  have hcontrols := everyClass_controls mode mode.mem_all rule hmem
  exact huniform.imp₂ (fun p hp hcontrol c => ((hf c).class_eq hp hcontrol).symm) hcontrols

theorem Unseen.width_map (cs : List Char) : Text.width (cs.map f) = Text.width cs := by
  induction cs with
  | nil => rfl
  | cons c cs ih => rw [List.map_cons, Text.width_cons, Text.width_cons, ih, (hf c).utf8Size_eq]

end

/-! ### Tokens -/

def Lexeme.rename (f : Char → Char) (x : Lexeme) : Lexeme := { x with text := x.text.map f }

def Token.rename (f : Char → Char) (t : Token) : Token := { t with text := t.text.map f }

def Step.rename (f : Char → Char) (s : Step) : Step :=
  { s with text := s.text.map f, rest := s.rest.map f }

def Action.isClassify : Action → Bool
  | classify _ => true
  | emit _ | enclosed _ _ => false

/-- Only words of visible ASCII characters are looked up. -/
theorem avoids_of_isClassify : ∀ mode ∈ Mode.all, ∀ rule ∈ mode.rules,
    rule.action.isClassify = true →
      ['\x00', '\x01', '\u0080'].all rule.pattern.avoids = true := by
  decide +kernel

theorem Action.lexemes_map {action : Action} {f : Char → Char} {text : List Char}
    (h : action.isClassify = true → text.map f = text) :
    action.lexemes (text.map f) =
      ((action.lexemes text).1.rename f, (action.lexemes text).2.map (Lexeme.rename f)) := by
  cases action with
  | emit category => rfl
  | classify shape => simp [lexemes, Lexeme.rename, h rfl]
  | enclosed mark body =>
    simp only [lexemes, List.length_map]
    split <;> simp [Lexeme.rename, List.map_take, List.map_drop]

section
variable {f : Char → Char} (hf : Unseen f)
include hf

theorem Unseen.map_eq_of_isClassify {mode : Mode} {rule : Rule} (hmem : rule ∈ mode.rules)
    (haction : rule.action.isClassify = true) {cs : List Char} {m : Match}
    (hm : rule.pattern.match? cs = some m) : m.text.map f = m.text := by
  have havoids := List.all_eq_true.1 (avoids_of_isClassify mode mode.mem_all rule hmem haction)
  have hascii := Pattern.readsOnly_ascii (Pattern.everyClass_ascii
    (Pattern.uniform_rules mode rule hmem) (havoids '\u0080' (by simp)))
  have hnull := Pattern.readsOnly_of_avoids (havoids '\x00' (by simp))
  have hone := Pattern.readsOnly_of_avoids (havoids '\x01' (by simp))
  have hfixed : ∀ c ∈ m.text, f c = c := by
    intro c hc
    have hlt := Pattern.forall_mem_of_match? hascii hm c hc
    have hne := Pattern.forall_mem_of_match? hnull hm c hc
    have hne' := Pattern.forall_mem_of_match? hone hm c hc
    exact ((hf c).eq_of_ascii hlt hne hne').symm
  rw [List.map_congr_left hfixed, List.map_id']

theorem Unseen.layout_map (offset : Nat) (xs : List Lexeme) :
    Lexeme.layout offset (xs.map (Lexeme.rename f)) =
      (Lexeme.layout offset xs).map (Token.rename f) := by
  induction xs generalizing offset with
  | nil => rfl
  | cons x xs ih =>
    have hwidth := hf.width_map x.text
    simp only [List.map_cons, Lexeme.layout, Lexeme.rename, hwidth]
    rw [← ih]
    rfl

theorem Unseen.stop_rename (t : Token) : (t.rename f).stop = t.stop := by
  rw [Token.stop, Token.rename, hf.width_map, Token.stop]

theorem Unseen.patch_rename (t : Token) : (t.rename f).patch = t.patch := by
  rw [Token.patch, Token.span, hf.stop_rename]
  rfl

theorem Unseen.stop_step_rename (s : Step) : (s.rename f).stop = s.stop := by
  rw [Step.stop, Step.rename, hf.width_map, Step.stop]

theorem Unseen.step_map (start : Nat) (modes : ModeStack) (c : Char) (cs : List Char) :
    step start modes (f c) (cs.map f) = (step start modes c cs).rename f := by
  have hfirst := Rule.first?_map (hf.everyClass_rules modes.top) (c :: cs)
  rw [step, ← List.map_cons, hfirst, step]
  cases Rule.first? modes.top.rules (c :: cs) <;> rfl

theorem Unseen.tokens_rename (start : Nat) (modes : ModeStack) (c : Char) (cs : List Char) :
    ((step start modes c cs).rename f).tokens =
      (step start modes c cs).tokens.map (Token.rename f) := by
  have hlexemes : ((step start modes c cs).rename f).lexemes =
      ((step start modes c cs).lexemes.1.rename f,
        (step start modes c cs).lexemes.2.map (Lexeme.rename f)) := by
    rcases step_cases start modes c cs with ⟨rule, m, hmem, hmatch, hstep⟩ | hstep
    · rw [hstep]
      apply Action.lexemes_map
      -- a word that is looked up has no character that is renamed
      intro haction
      exact hf.map_eq_of_isClassify hmem haction (Rule.match?_eq_some_iff.1 hmatch).1
    · rw [hstep]
      rfl
  rw [Step.tokens_eq_layout, hlexemes, Step.tokens_eq_layout, ← hf.layout_map]
  rfl

/-- The steps that read the renamed text are the renamed steps, with the same rules and modes. -/
theorem Unseen.steps_map (start : Nat) (modes : ModeStack) (cs : List Char) :
    steps start modes (cs.map f) = (steps start modes cs).map (Step.rename f) := by
  fun_induction steps start modes cs with
  | case1 start modes => simp
  | case2 start modes c cs s ih =>
    rw [List.map_cons, steps_cons, hf.step_map, List.map_cons, ← ih]
    change s.rename f :: steps (s.rename f).stop s.after (s.rest.map f) = _
    rw [hf.stop_step_rename]

theorem Unseen.flatMap_tokens_map (start : Nat) (modes : ModeStack) (cs : List Char) :
    (steps start modes (cs.map f)).flatMap Step.tokens =
      ((steps start modes cs).flatMap Step.tokens).map (Token.rename f) := by
  rw [hf.steps_map]
  fun_induction steps start modes cs with
  | case1 => rfl
  | case2 start modes c cs s ih =>
    rw [List.map_cons, List.flatMap_cons, ih, hf.tokens_rename, List.flatMap_cons,
      List.map_append]

theorem Unseen.tokens_map (modes : ModeStack) (source : List Char) :
    tokens modes (source.map f) = (tokens modes source).map (Token.rename f) :=
  hf.flatMap_tokens_map 0 modes source

end

/-! ### Streams and stretches -/

def Stream.rename (f : Char → Char) (s : Stream) : Stream :=
  { s with source := s.source.map f, rest := s.rest.map f, queue := s.queue.map (Token.rename f) }

section
variable {f : Char → Char} (hf : Unseen f)
include hf

theorem Unseen.next?_rename (s : Stream) :
    (s.rename f).next? = s.next?.map fun found => (found.1.rename f, found.2.rename f) := by
  obtain ⟨source, offset, rest, modes, queue⟩ := s
  cases queue with
  | cons t ts => rfl
  | nil =>
    cases rest with
    | nil => rfl
    | cons c cs =>
      have htokens := hf.tokens_rename offset modes c cs
      simp only [Step.tokens, List.map_cons, List.cons.injEq] at htokens
      have hstop := hf.stop_step_rename (step offset modes c cs)
      simp only [Stream.next?, Stream.rename, List.map_nil, List.map_cons, hf.step_map,
        Stream.advance, Option.map_some, htokens, hstop]
      rfl

/-- The streams of a text and of the renamed text stay in the same modes. -/
theorem Unseen.take_rename (n : Nat) (s : Stream) :
    (s.rename f).take n = ((s.take n).1.map (Token.rename f), (s.take n).2.rename f) := by
  induction n generalizing s with
  | zero => rfl
  | succ n ih =>
    rw [Stream.take, hf.next?_rename, Stream.take]
    cases s.next? with
    | none => rfl
    | some found =>
      simp only [Option.map_some, ih]
      rfl

theorem Unseen.joinTo_rename (t : Token) (us : List Token) :
    (t.rename f).joinTo (us.map (Token.rename f)) = (t.joinTo us).map (Token.rename f) := by
  cases us with
  | nil => rfl
  | cons u us =>
    have hjoins : (t.rename f).joins (u.rename f) = t.joins u := by
      rw [Token.joins, hf.stop_rename]
      rfl
    simp only [List.map_cons, Token.joinTo, hjoins]
    split <;> simp [Token.rename]

theorem Unseen.coalesce_map (ts : List Token) :
    coalesce (ts.map (Token.rename f)) = (coalesce ts).map (Token.rename f) := by
  induction ts with
  | nil => rfl
  | cons t ts ih =>
    simp only [coalesce, List.map_cons, List.foldr_cons] at ih ⊢
    rw [ih, hf.joinTo_rename]

theorem Unseen.highlight_map (source : List Char) :
    highlight (source.map f) = (highlight source).map (Token.rename f) := by
  rw [highlight, hf.tokens_map, significant, List.filter_map, hf.coalesce_map]
  rfl

theorem Unseen.map_patch_map (ts : List Token) :
    (ts.map (Token.rename f)).map Token.patch = ts.map Token.patch := by
  rw [List.map_map]
  exact List.map_congr_left fun t _ => hf.patch_rename t

end

/-! ### Alike sources -/

/--
One character for all that are alike. Of two alike texts neither has to be a renaming of the other,
but both look the same under the veil.
-/
def veil (c : Char) : Char :=
  if c = '\x01' then '\x00'
  else if c.toNat < 128 then c
  else if c.utf8Size = 2 then '\u0080'
  else if c.utf8Size = 3 then '\u0800'
  else Char.ofNat 0x10000

theorem unseen_veil : Unseen veil := by
  intro c
  unfold veil
  split
  next hone =>
    rw [hone]
    exact .toNull
  next =>
    split
    next => exact .same c
    next hascii =>
      have hle : 128 ≤ c.toNat := by omega
      have hone : c.utf8Size ≠ 1 := by
        intro hsize
        have hval : c.toNat ≤ 127 := Char.utf8Size_eq_one_iff.1 hsize
        omega
      split
      next hsize => exact .beyond hle (by decide) hsize
      next htwo =>
        split
        next hsize => exact .beyond hle (by decide) hsize
        next hthree =>
          have hsize : c.utf8Size = 4 := by
            have hpos := c.utf8Size_pos
            have hfour := c.utf8Size_le_four
            omega
          exact .beyond hle (by decide) hsize

theorem CharAlike.veil_eq {c d : Char} (h : CharAlike c d) : veil c = veil d := by
  cases h with
  | same | ofNull | toNull => rfl
  | beyond hc hd hsize =>
    have hbeyond : ∀ x : Char, 128 ≤ x.toNat → x ≠ '\x01' ∧ ¬x.toNat < 128 := by
      intro x hx
      refine ⟨?_, by omega⟩
      rintro rfl
      simp at hx
    simp [veil, hbeyond c hc, hbeyond d hd, hsize]

theorem map_veil_eq {s t : List Char} (h : List.Forall₂ CharAlike s t) :
    s.map veil = t.map veil := by
  induction h with
  | nil => rfl
  | cons hcd _ ih => rw [List.map_cons, List.map_cons, hcd.veil_eq, ih]

/-- Tokens that look alike under the veil are the same patches. -/
theorem map_patch_eq_of_veil {ts us : List Token}
    (h : ts.map (Token.rename veil) = us.map (Token.rename veil)) :
    ts.map Token.patch = us.map Token.patch := by
  rw [← unseen_veil.map_patch_map ts, h, unseen_veil.map_patch_map]

/--
Neither a null character nor a character beyond ASCII is seen: two texts that differ in such
characters only are divided alike, in the same modes after every token, and coloured alike.
-/
theorem tokens_charAlike {s t : List Char} (h : List.Forall₂ CharAlike s t) (modes : ModeStack) :
    (tokens modes s).map Token.patch = (tokens modes t).map Token.patch ∧
    (∀ n,
      ((Stream.start modes s).take n).1.map Token.patch =
        ((Stream.start modes t).take n).1.map Token.patch ∧
      ((Stream.start modes s).take n).2.modes = ((Stream.start modes t).take n).2.modes) ∧
    (highlight s).map Token.patch = (highlight t).map Token.patch ∧
    ∀ l, scopedSpans l s = scopedSpans l t := by
  have hveil := map_veil_eq h
  have hhighlight : (highlight s).map Token.patch = (highlight t).map Token.patch := by
    apply map_patch_eq_of_veil
    rw [← unseen_veil.highlight_map, hveil, unseen_veil.highlight_map]
  refine ⟨?_, ?_, hhighlight, ?_⟩
  · apply map_patch_eq_of_veil
    rw [← unseen_veil.tokens_map, hveil, unseen_veil.tokens_map]
  · intro n
    have hstart : (Stream.start modes s).rename veil = (Stream.start modes t).rename veil := by
      simp [Stream.rename, Stream.start, hveil]
    have htake := congrArg (Stream.take n) hstart
    rw [unseen_veil.take_rename, unseen_veil.take_rename, Prod.mk.injEq] at htake
    have hmodes := congrArg Stream.modes htake.2
    exact ⟨map_patch_eq_of_veil htake.1, hmodes⟩
  · intro l
    have hscoped := congrArg (List.map fun p : Patch => ScopedSpan.mk p.span (l.scope p.category))
      hhighlight
    rw [List.map_map, List.map_map] at hscoped
    exact hscoped

/-- A null character in a comment, and a letter beyond ASCII in a string that is never closed. -/
theorem tokens_charAlike_string :
    let s := ['/', '/', '\x00', '\n', '"', 'é', '\x00']
    let t := ['/', '/', '\x01', '\n', '"', 'ß', '\x01']
    List.Forall₂ CharAlike s t ∧ s ≠ t ∧
      (tokens {} s).map Token.patch = (tokens {} t).map Token.patch ∧
      ((Stream.start {} s).take 3).2.modes = ((Stream.start {} t).take 3).2.modes := by
  intro s t
  have hbeyond : CharAlike 'é' 'ß' := .beyond (by decide) (by decide) (by decide)
  have halike : List.Forall₂ CharAlike s t :=
    .cons (.same _) (.cons (.same _) (.cons .ofNull (.cons (.same _) (.cons (.same _)
      (.cons hbeyond (.cons .ofNull .nil))))))
  have h := tokens_charAlike halike {}
  exact ⟨halike, by decide, h.1, (h.2.1 3).2⟩

end Tokenizer
