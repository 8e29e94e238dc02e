import Tokenizer.Proofs.Matching
import Tokenizer.Proofs.Region

/-!
Faults. Each invalid category has a mode of its own, so what a fault says about its surroundings
can be read off the scan. The faults of a source are its invalid tokens and, at the end, the region
that is still open.
-/
namespace Tokenizer

def Category.isFault : Category → Bool
  | stringInvalid | charInvalid | stringEscapeInvalid | docCommentInvalid | invalid => true
  | _ => false

/-! ### Where invalid tokens come from -/

/-- The only mode whose rules give the category, if there is one. -/
def Category.faultMode? : Category → Option Mode
  | stringInvalid | charInvalid => some .root
  | stringEscapeInvalid => some (.inside .string)
  | docCommentInvalid => some (.inside .docComment)
  | _ => none

/-- The action can give a lexeme of the category; words and symbols are never faults. -/
def Action.gives (category : Category) : Action → Bool
  | emit c => c == category
  | classify _ => !category.isFault
  | enclosed mark body => mark == category || body == category

theorem Shape.isFault_classify (shape : Shape) (text : List Char) :
    (shape.classify text).isFault = false := by
  cases shape <;> simp only [classify] <;> split <;> rfl

theorem Action.gives_of_mem_lexemes (action : Action) {text : List Char} {x : Lexeme}
    (hx : x ∈ (action.lexemes text).1 :: (action.lexemes text).2) :
    action.gives x.category = true := by
  cases action with
  | emit category =>
    obtain rfl : x = ⟨category, text⟩ := by simpa [lexemes] using hx
    simp [gives]
  | classify shape =>
    obtain rfl : x = ⟨shape.classify text, text⟩ := by simpa [lexemes] using hx
    simp [gives, shape.isFault_classify]
  | enclosed mark body =>
    simp only [lexemes] at hx
    split at hx
    · obtain rfl : x = ⟨mark, text⟩ := by simpa using hx
      simp [gives]
    · simp only [List.mem_cons, List.not_mem_nil, or_false] at hx
      rcases hx with rfl | rfl | rfl <;> simp [gives]

theorem faultMode?_of_gives : ∀ mode ∈ Mode.all, ∀ rule ∈ mode.rules,
    ∀ category ∈ Category.all.filter Category.isFault,
      rule.action.gives category = true → category.faultMode? = some mode := by
  decide

theorem Lexeme.exists_of_mem_layout {offset : Nat} {xs : List Lexeme} {t : Token}
    (h : t ∈ layout offset xs) : ∃ x ∈ xs, t.category = x.category := by
  induction xs generalizing offset with
  | nil => simp [layout] at h
  | cons x xs ih =>
    rcases List.mem_cons.1 h with rfl | h
    · exact ⟨x, List.mem_cons_self, rfl⟩
    · obtain ⟨y, hy, hcategory⟩ := ih h
      exact ⟨y, List.mem_cons_of_mem x hy, hcategory⟩

/-- An invalid token of a step comes from a rule of its own mode or from no rule at all. -/
theorem fault_cases {start : Nat} {modes : ModeStack} {c : Char} {cs : List Char} {t : Token}
    (ht : t ∈ (step start modes c cs).tokens) (hfault : t.category.isFault = true) :
    (∃ rule m, rule ∈ modes.top.rules ∧ rule.match? (c :: cs) = some m ∧
      step start modes c cs = ⟨start, modes, some rule, m.text, m.rest⟩ ∧
      rule.action.gives t.category = true ∧ t.category.faultMode? = some modes.top) ∨
    t = ⟨.invalid, start, [c]⟩ ∧ step start modes c cs = ⟨start, modes, none, [c], cs⟩ := by
  rcases step_cases start modes c cs with ⟨rule, m, hmem, hmatch, hstep⟩ | hstep
  · left
    rw [hstep, Step.tokens_eq_layout] at ht
    obtain ⟨x, hx, hcategory⟩ := Lexeme.exists_of_mem_layout ht
    have hgives := rule.action.gives_of_mem_lexemes hx
    rw [← hcategory] at hgives
    have hin : t.category ∈ Category.all.filter Category.isFault :=
      List.mem_filter.2 ⟨Category.mem_all _, hfault⟩
    exact ⟨rule, m, hmem, hmatch, hstep, hgives,
      faultMode?_of_gives _ (Mode.mem_all _) rule hmem _ hin hgives⟩
  · right
    rw [hstep] at ht
    exact ⟨List.mem_singleton.1 ht, hstep⟩

theorem Pattern.of_match?_anyEscape {cs : List Char} {m : Match}
    (h : anyEscape.match? cs = some m) :
    ∃ c rest, cs = '\\' :: c :: rest ∧ CharClass.isLineBreak c = false ∧ m = ⟨['\\', c], rest⟩ := by
  obtain ⟨x, hx, y, hy, rfl⟩ := match?_append_eq_some.1 h
  obtain ⟨rest, rfl, rfl⟩ := match?_char_eq_some.1 hx
  obtain ⟨c, tail, rfl, hc, rfl⟩ := match?_one_eq_some.1 hy
  exact ⟨c, tail, rfl, by simpa using hc, rfl⟩

section
variable {start : Nat} {modes : ModeStack} {c : Char} {cs : List Char} {t : Token}
  (ht : t ∈ (step start modes c cs).tokens)
include ht

/-- An invalid category arises only in its own mode. -/
theorem top_of_faultMode? {mode : Mode} (hmode : t.category.faultMode? = some mode) :
    modes.top = mode := by
  have hfault : t.category.isFault = true := by
    cases h : t.category <;> simp_all [Category.faultMode?, Category.isFault]
  rcases fault_cases ht hfault with ⟨rule, m, -, -, -, -, htop⟩ | ⟨rfl, -⟩
  · rw [hmode] at htop
    exact (Option.some.inj htop).symm
  · simp [Category.faultMode?] at hmode

theorem text_of_invalid (hcategory : t.category = .invalid) : ∃ d, t.text = [d] := by
  have hfault : t.category.isFault = true := by rw [hcategory]; rfl
  rcases fault_cases ht hfault with ⟨rule, m, -, -, -, -, htop⟩ | ⟨rfl, -⟩
  · rw [hcategory] at htop
    simp [Category.faultMode?] at htop
  · exact ⟨c, rfl⟩

/-- The step that gives an unknown escape. -/
theorem step_of_stringEscapeInvalid (hcategory : t.category = .stringEscapeInvalid) :
    modes.top = .inside .string ∧ ∃ d rest, c = '\\' ∧ cs = d :: rest ∧
      CharClass.isLineBreak d = false ∧
      step start modes c cs = ⟨start, modes, some ⟨"string.escape.invalid", .anyEscape,
        .emit .stringEscapeInvalid, .stay⟩, ['\\', d], rest⟩ ∧
      t = ⟨.stringEscapeInvalid, start, ['\\', d]⟩ := by
  have hfault : t.category.isFault = true := by rw [hcategory]; rfl
  have htop : modes.top = .inside .string := top_of_faultMode? ht (by rw [hcategory]; rfl)
  refine ⟨htop, ?_⟩
  rcases fault_cases ht hfault with ⟨rule, m, hmem, hmatch, hstep, hgives, -⟩ | ⟨rfl, -⟩
  · rw [hcategory] at hgives
    rw [htop] at hmem
    obtain rfl : rule =
        ⟨"string.escape.invalid", .anyEscape, .emit .stringEscapeInvalid, .stay⟩ := by
      simp only [Mode.rules, stringRules, List.mem_cons, List.not_mem_nil, or_false] at hmem
      rcases hmem with rfl | rfl | rfl | rfl <;> simp_all [Action.gives]
    obtain ⟨d, rest, hcs, hd, rfl⟩ :=
      Pattern.of_match?_anyEscape (Rule.match?_eq_some_iff.1 hmatch).1
    obtain ⟨rfl, rfl⟩ := List.cons.inj hcs
    rw [hstep, Step.tokens_of_emit rfl rfl, List.mem_singleton] at ht
    exact ⟨d, rest, rfl, rfl, hd, hstep, ht⟩
  · simp at hcategory

end

/-! ### What a fault has to say -/

def Region.context (start : Nat) : Region → Context
  | string => .insideString start
  | blockComment => .insideComment start
  | docComment => .insideDocComment start

def Region.unclosedCause : Region → Cause
  | string => .unterminatedString
  | blockComment | docComment => .unterminatedComment

/-- Cause and context of the fault of a token `t`, which step `s` gives after the steps `before`. -/
inductive Describes (before : List Step) (s : Step) (t : Token) : Cause → Context → Prop
  | unterminated : t.category = .stringInvalid →
      Describes before s t .unterminatedString (.insideString t.start)
  | charLiteral : t.category = .charInvalid →
      Describes before s t .invalidCharLiteral .insideChar
  | escape {opener : Step} {c : Char} : t.category = .stringEscapeInvalid → t.text = ['\\', c] →
      s.mode = .inside .string → OpenedBy before opener .string →
      Describes before s t (.invalidEscape c) (.insideString opener.token.start)
  | nested {opener : Step} : t.category = .docCommentInvalid → s.mode = .inside .docComment →
      OpenedBy before opener .docComment →
      Describes before s t .nestedDocComment (.insideDocComment opener.token.start)
  | inString {opener : Step} {c : Char} : t.category = .invalid → t.text = [c] →
      s.mode = .inside .string → OpenedBy before opener .string →
      Describes before s t (.unrecognizedCharacter c) (.insideString opener.token.start)
  | elsewhere {c : Char} : t.category = .invalid → t.text = [c] → s.mode ≠ .inside .string →
      Describes before s t (.unrecognizedCharacter c) .topLevel

/-- The diagnostic is the one for this token of the source. -/
def Explains (source : List Char) (t : Token) (d : Diagnostic) : Prop :=
  ∃ before s after, scan {} source = before ++ s :: after ∧ t ∈ s.tokens ∧ d.span = t.span ∧
    Describes before s t d.cause d.context

theorem Diagnostic.ofToken?_eq_none {mode : Mode} {opened : Nat} {t : Token}
    (h : t.category.isFault = false) : ofToken? mode opened t = none := by
  unfold ofToken?
  split <;> simp_all [Category.isFault]

/-- An invalid token gets the fault that is its due. -/
theorem exists_ofToken? {source : List Char} {before after : List Step} {s : Step} {t : Token}
    (hscan : scan {} source = before ++ s :: after) (ht : t ∈ s.tokens)
    (hfault : t.category.isFault = true) :
    ∃ d, Diagnostic.ofToken? s.mode (s.openedAt (openedAfter before)) t = some d ∧
      Explains source t d := by
  obtain ⟨c, rest, -, hs, -⟩ := steps_eq_append_cons hscan
  have hown : ∀ {mode : Mode}, t.category.faultMode? = some mode → s.mode = mode := by
    intro mode h
    rw [Step.mode, hs, step_modes]
    rw [hs] at ht
    exact top_of_faultMode? ht h
  suffices h : ∃ d, Diagnostic.ofToken? s.mode (s.openedAt (openedAfter before)) t = some d ∧
      d.span = t.span ∧ Describes before s t d.cause d.context by
    obtain ⟨d, hd, hspan, hdescribes⟩ := h
    exact ⟨d, hd, before, s, after, hscan, ht, hspan, hdescribes⟩
  cases hcategory : t.category with
  | stringInvalid =>
    exact ⟨_, by rw [Diagnostic.ofToken?, hcategory], rfl, .unterminated hcategory⟩
  | charInvalid =>
    exact ⟨_, by rw [Diagnostic.ofToken?, hcategory], rfl, .charLiteral hcategory⟩
  | stringEscapeInvalid =>
    have hinside : s.mode = .inside .string := hown (by rw [hcategory]; rfl)
    obtain ⟨opener, hopener, hstart⟩ := exists_openedBy hscan hinside
    obtain ⟨-, d, -, -, -, -, -, htoken⟩ := step_of_stringEscapeInvalid (hs ▸ ht) hcategory
    have htext : t.text = ['\\', d] := by rw [htoken]
    refine ⟨_, by rw [Diagnostic.ofToken?, hcategory], rfl, ?_⟩
    rw [htext, hstart]
    exact .escape hcategory htext hinside hopener
  | docCommentInvalid =>
    have hinside : s.mode = .inside .docComment := hown (by rw [hcategory]; rfl)
    obtain ⟨opener, hopener, hstart⟩ := exists_openedBy hscan hinside
    refine ⟨_, by rw [Diagnostic.ofToken?, hcategory], rfl, ?_⟩
    rw [hstart]
    exact .nested hcategory hinside hopener
  | invalid =>
    obtain ⟨d, htext⟩ := text_of_invalid (hs ▸ ht) hcategory
    refine ⟨_, by rw [Diagnostic.ofToken?, hcategory], ?_⟩
    rw [htext]
    split
    · rename_i hinside
      obtain ⟨opener, hopener, hstart⟩ := exists_openedBy hscan hinside
      rw [hstart]
      exact ⟨rfl, .inString hcategory htext hinside hopener⟩
    · rename_i hinside
      exact ⟨rfl, .elsewhere hcategory htext hinside⟩
  | _ =>
    rw [hcategory] at hfault
    simp [Category.isFault] at hfault

end Tokenizer
