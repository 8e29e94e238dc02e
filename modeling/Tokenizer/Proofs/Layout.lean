import Tokenizer.Scan

/-!
Tokens laid end to end. A step places its lexemes one after the other, and the next step starts
where it stops, so the tokens of a scan leave no gap and no overlap.
-/
namespace Tokenizer

/-- The tokens lie end to end from byte `start` on, and none of them is empty. -/
def LaidFrom : Nat → List Token → Prop
  | _, [] => True
  | start, t :: ts => t.start = start ∧ t.text ≠ [] ∧ LaidFrom t.stop ts

theorem laidFrom_append (start : Nat) (xs ys : List Token) :
    LaidFrom start (xs ++ ys) ↔
      LaidFrom start xs ∧ LaidFrom (start + Text.width (xs.flatMap Token.text)) ys := by
  induction xs generalizing start with
  | nil => simp [LaidFrom]
  | cons t ts ih =>
    simp only [List.cons_append, LaidFrom, ih, List.flatMap_cons, Text.width_append]
    constructor
    · rintro ⟨rfl, hne, hts, hys⟩
      exact ⟨⟨rfl, hne, hts⟩, by simpa only [Token.stop, Nat.add_assoc] using hys⟩
    · rintro ⟨⟨rfl, hne, hts⟩, hys⟩
      exact ⟨rfl, hne, hts, by simpa only [Token.stop, Nat.add_assoc] using hys⟩

theorem laidFrom_layout (start : Nat) (xs : List Lexeme) (h : ∀ x ∈ xs, x.text ≠ []) :
    LaidFrom start (Lexeme.layout start xs) := by
  induction xs generalizing start with
  | nil => exact trivial
  | cons x xs ih =>
    have hx : x.text ≠ [] := h x List.mem_cons_self
    have hxs : ∀ y ∈ xs, y.text ≠ [] := fun y hy => h y (List.mem_cons_of_mem x hy)
    exact ⟨rfl, hx, ih _ hxs⟩

/-- A text that is not empty gives no empty lexeme, also where it is divided into three. -/
theorem Action.text_ne_nil_of_mem_lexemes (action : Action) {text : List Char} (h : text ≠ [])
    {x : Lexeme} (hx : x ∈ (action.lexemes text).1 :: (action.lexemes text).2) :
    x.text ≠ [] := by
  have hpos := List.length_pos_iff.2 h
  cases action with
  | emit category =>
    obtain rfl : x = ⟨category, text⟩ := by simpa [lexemes] using hx
    exact h
  | classify shape =>
    obtain rfl : x = ⟨shape.classify text, text⟩ := by simpa [lexemes] using hx
    exact h
  | enclosed mark body =>
    simp only [lexemes] at hx
    split at hx
    · obtain rfl : x = ⟨mark, text⟩ := by simpa using hx
      exact h
    · apply List.ne_nil_of_length_pos
      simp only [List.mem_cons, List.not_mem_nil, or_false] at hx
      rcases hx with rfl | rfl | rfl
      · simp only [List.length_take]; omega
      · simp only [List.length_take, List.length_drop]; omega
      · simp only [List.length_drop]; omega

namespace Step

theorem tokens_eq_layout (s : Step) :
    s.tokens = Lexeme.layout s.start (s.lexemes.1 :: s.lexemes.2) := rfl

theorem tokens_of_emit {s : Step} {rule : Rule} {category : Category}
    (hr : s.rule? = some rule) (ha : rule.action = .emit category) :
    s.tokens = [⟨category, s.start, s.text⟩] := by
  simp [tokens, token, queued, lexemes, hr, ha, Action.lexemes, Lexeme.place, Lexeme.layout]

theorem flatMap_text_tokens (s : Step) : s.tokens.flatMap Token.text = s.text := by
  have hmap := Lexeme.map_text_layout s.start (s.lexemes.1 :: s.lexemes.2)
  have hlex : (s.lexemes.1 :: s.lexemes.2).flatMap Lexeme.text = s.text := by
    rw [List.flatMap_cons, lexemes]
    cases s.rule? with
    | none => simp
    | some rule => exact rule.action.flatMap_lexemes s.text
  rw [tokens_eq_layout, List.flatMap_def, hmap, ← List.flatMap_def, hlex]

theorem laidFrom_tokens (s : Step) (h : s.text ≠ []) : LaidFrom s.start s.tokens := by
  rw [tokens_eq_layout]
  apply laidFrom_layout
  intro x hx
  cases hr : s.rule? with
  | none =>
    obtain rfl : x = ⟨.invalid, s.text⟩ := by simpa [lexemes, hr] using hx
    exact h
  | some rule =>
    have hx : x ∈ (rule.action.lexemes s.text).1 :: (rule.action.lexemes s.text).2 := by
      simpa [lexemes, hr] using hx
    exact rule.action.text_ne_nil_of_mem_lexemes h hx

end Step

theorem step_of_first? {modes : ModeStack} {c : Char} {cs : List Char} {rule : Rule} {m : Match}
    (h : Rule.first? modes.top.rules (c :: cs) = some (rule, m)) (start : Nat) :
    step start modes c cs = ⟨start, modes, some rule, m.text, m.rest⟩ := by
  rw [step, h]

/-- All that a step can do: apply a rule of its mode or read one character without a rule. -/
theorem step_cases (start : Nat) (modes : ModeStack) (c : Char) (cs : List Char) :
    (∃ rule m, rule ∈ modes.top.rules ∧ rule.match? (c :: cs) = some m ∧
      step start modes c cs = ⟨start, modes, some rule, m.text, m.rest⟩) ∨
    step start modes c cs = ⟨start, modes, none, [c], cs⟩ := by
  cases h : Rule.first? modes.top.rules (c :: cs) with
  | none =>
    right
    rw [step, h]
  | some found =>
    obtain ⟨rule, m⟩ := found
    obtain ⟨hmem, hmatch⟩ := Rule.of_first?_eq_some h
    exact .inl ⟨rule, m, hmem, hmatch, step_of_first? h start⟩

@[simp] theorem step_start (start : Nat) (modes : ModeStack) (c : Char) (cs : List Char) :
    (step start modes c cs).start = start := by
  rw [step]
  split <;> rfl

@[simp] theorem step_modes (start : Nat) (modes : ModeStack) (c : Char) (cs : List Char) :
    (step start modes c cs).modes = modes := by
  rw [step]
  split <;> rfl

theorem stop_add_width_rest (start : Nat) (modes : ModeStack) (c : Char) (cs : List Char) :
    (step start modes c cs).stop + Text.width (step start modes c cs).rest =
      start + Text.width (c :: cs) := by
  rw [← step_split start modes c cs, Text.width_append, Step.stop, step_start, Nat.add_assoc]

theorem flatMap_text_tokens_steps (start : Nat) (modes : ModeStack) (cs : List Char) :
    ((steps start modes cs).flatMap Step.tokens).flatMap Token.text = cs := by
  rw [List.flatMap_assoc]
  simp only [Step.flatMap_text_tokens]
  exact flatMap_text_steps start modes cs

/-- The tokens of a scan lie end to end. -/
theorem laidFrom_steps (start : Nat) (modes : ModeStack) (cs : List Char) :
    LaidFrom start ((steps start modes cs).flatMap Step.tokens) := by
  fun_induction steps start modes cs with
  | case1 => exact trivial
  | case2 start modes c cs s ih =>
    have hs : s.start = start := step_start start modes c cs
    have hstop : start + Text.width s.text = s.stop := by rw [Step.stop, hs]
    have hlaid := s.laidFrom_tokens (step_text_ne_nil start modes c cs)
    rw [hs] at hlaid
    rw [List.flatMap_cons, laidFrom_append, s.flatMap_text_tokens, hstop]
    exact ⟨hlaid, ih⟩

theorem LaidFrom.start_eq {start : Nat} {xs ys : List Token} {t : Token}
    (h : LaidFrom start (xs ++ t :: ys)) :
    t.start = start + Text.width (xs.flatMap Token.text) :=
  ((laidFrom_append start xs (t :: ys)).1 h).2.1

theorem LaidFrom.nonempty {start : Nat} {ts : List Token} (h : LaidFrom start ts) :
    ∀ t ∈ ts, t.start < t.stop := by
  induction ts generalizing start with
  | nil => simp
  | cons t ts ih =>
    obtain ⟨_, hne, hts⟩ := h
    have hpos := Text.width_pos hne
    intro u hu
    rcases List.mem_cons.1 hu with rfl | hu
    · rw [Token.stop]
      omega
    · exact ih hts u hu

/-- Tokens that lie end to end stay within the bytes of their texts. -/
theorem LaidFrom.within {start : Nat} {ts : List Token} (h : LaidFrom start ts) :
    ∀ t ∈ ts, start ≤ t.start ∧ t.stop ≤ start + Text.width (ts.flatMap Token.text) := by
  intro t ht
  obtain ⟨xs, ys, rfl⟩ := List.append_of_mem ht
  have hstart := h.start_eq
  simp only [Token.stop, hstart, List.flatMap_append, List.flatMap_cons, Text.width_append]
  omega

/-! ### Matches that are divided -/

def Action.isSingle : Action → Bool
  | emit _ | classify _ => true
  | enclosed _ _ => false

theorem Action.lexemes_of_isSingle {action : Action} (h : action.isSingle = true)
    (text : List Char) : (action.lexemes text).2 = [] := by
  cases action with
  | emit category => rfl
  | classify shape => rfl
  | enclosed mark body => simp [isSingle] at h

theorem Action.lexemes_enclosed (mark category : Category) {a b : Char} {body : List Char}
    (h : body ≠ []) :
    (enclosed mark category).lexemes (a :: (body ++ [b])) =
      (⟨mark, [a]⟩, [⟨category, body⟩, ⟨mark, [b]⟩]) := by
  have hlen := List.length_pos_iff.2 h
  rw [lexemes, if_neg (by simp; omega)]
  simp

/-- The only match that is divided is an escape sequence between single quotes. -/
theorem isSingle_or_charEscape (mode : Mode) : ∀ rule ∈ mode.rules,
    rule.action.isSingle = true ∨
      rule = ⟨"char.escape", .charEscapeLiteral, .enclosed .char .stringEscape, .stay⟩ := by
  cases mode with
  | inside region =>
    cases region <;>
      simp [Mode.rules, blockCommentRules, docCommentRules, stringRules, Action.isSingle]
  | _ =>
    simp [Mode.rules, rootRules, whitespaceRules, numberRules, quoteRules, Action.isSingle]

/-! ### Scans at other offsets -/

theorem Lexeme.layout_add (n offset : Nat) (xs : List Lexeme) :
    layout (n + offset) xs = (layout offset xs).map (Token.shift n) := by
  induction xs generalizing offset with
  | nil => rfl
  | cons x xs ih =>
    simp only [layout, List.map_cons, Nat.add_assoc, ih]
    rfl

def Step.shift (n : Nat) (s : Step) : Step := { s with start := n + s.start }

@[simp] theorem Step.tokens_shift (n : Nat) (s : Step) :
    (s.shift n).tokens = s.tokens.map (Token.shift n) :=
  Lexeme.layout_add n s.start (s.lexemes.1 :: s.lexemes.2)

@[simp] theorem Step.stop_shift (n : Nat) (s : Step) : (s.shift n).stop = n + s.stop :=
  Nat.add_assoc n s.start (Text.width s.text)

theorem step_add (n start : Nat) (modes : ModeStack) (c : Char) (cs : List Char) :
    step (n + start) modes c cs = (step start modes c cs).shift n := by
  rw [step, step]
  cases Rule.first? modes.top.rules (c :: cs) <;> rfl

/-- The offset at which a scan starts only moves its steps. -/
theorem steps_add (n start : Nat) (modes : ModeStack) (cs : List Char) :
    steps (n + start) modes cs = (steps start modes cs).map (Step.shift n) := by
  fun_induction steps start modes cs with
  | case1 => simp
  | case2 start modes c cs s ih =>
    rw [steps_cons, step_add, List.map_cons, Step.stop_shift]
    exact congrArg (List.cons (s.shift n)) ih

theorem flatMap_tokens_steps (start : Nat) (modes : ModeStack) (cs : List Char) :
    (steps start modes cs).flatMap Step.tokens = (tokens modes cs).map (Token.shift start) := by
  have h := steps_add start 0 modes cs
  rw [Nat.add_zero] at h
  rw [h, tokens, scan, List.flatMap_map, List.map_flatMap]
  simp only [Step.tokens_shift]

theorem endModes_steps (start : Nat) (modes : ModeStack) (cs : List Char) :
    endModes modes (steps start modes cs) = finalModes modes cs := by
  have h := steps_add start 0 modes cs
  rw [Nat.add_zero] at h
  rw [h, finalModes, scan, endModes, endModes, List.foldl_map]
  rfl

end Tokenizer
