import Tokenizer.Rule.Table

/-!
Scanning. A scan reads a source in steps. Each step applies the first rule of the active mode that
matches or, where none does, takes one character as invalid. The open regions are all that one
step hands to the next, so a scan can start from the regions that an earlier one left open.

Offsets have no bound here, while the greatest that a span may hold is `Span.maxOffset`. Scans are
meant for sources that are no wider than that. On these, scanning with checks gives the same tokens;
it does not read what lies beyond the greatest offset (`Tokenizer.Checked.Cursor.start`).
-/
namespace Tokenizer

/-- One step of a scan. -/
structure Step where
  /-- The byte offset at which the step starts. -/
  start : Nat
  /-- The modes in which the step was taken. -/
  modes : ModeStack
  /-- The rule that matched, if any did. -/
  rule? : Option Rule
  /-- The text that the step reads. -/
  text : List Char
  /-- The source that is still to be read. -/
  rest : List Char

namespace Step

def stop (s : Step) : Nat := s.start + Text.width s.text

def span (s : Step) : Span := ⟨s.start, s.stop⟩

def mode (s : Step) : Mode := s.modes.top

/-- The modes after the step. -/
def after (s : Step) : ModeStack :=
  match s.rule? with
  | some rule => rule.transition.apply s.modes
  | none => s.modes

/-- The first lexeme of the step, and those that follow it. -/
def lexemes (s : Step) : Lexeme × List Lexeme :=
  match s.rule? with
  | some rule => rule.action.lexemes s.text
  | none => (⟨.invalid, s.text⟩, [])

def token (s : Step) : Token := s.lexemes.1.place s.start

/-- The tokens of the step after its first. -/
def queued (s : Step) : List Token := Lexeme.layout s.token.stop s.lexemes.2

def tokens (s : Step) : List Token := s.token :: s.queued

end Step

/-- The step at byte `start` of a source, where the character `c` and then `cs` are to be read. -/
def step (start : Nat) (modes : ModeStack) (c : Char) (cs : List Char) : Step :=
  match Rule.first? modes.top.rules (c :: cs) with
  | some (rule, m) => ⟨start, modes, some rule, m.text, m.rest⟩
  | none => ⟨start, modes, none, [c], cs⟩

/-- A step divides the source. -/
theorem step_split (start : Nat) (modes : ModeStack) (c : Char) (cs : List Char) :
    (step start modes c cs).text ++ (step start modes c cs).rest = c :: cs := by
  rw [step]
  split
  · rename_i rule m h
    exact rule.pattern.match?_split (Rule.match?_eq_some_iff.1 (Rule.of_first?_eq_some h).2).1
  · rfl

/-- A step reads something. -/
theorem step_text_ne_nil (start : Nat) (modes : ModeStack) (c : Char) (cs : List Char) :
    (step start modes c cs).text ≠ [] := by
  rw [step]
  split
  · rename_i rule m h
    exact (Rule.match?_eq_some_iff.1 (Rule.of_first?_eq_some h).2).2
  · exact List.cons_ne_nil c []

/-- A step leaves less to read. -/
theorem length_step_rest_lt (start : Nat) (modes : ModeStack) (c : Char) (cs : List Char) :
    (step start modes c cs).rest.length < (c :: cs).length := by
  have hlen := congrArg List.length (step_split start modes c cs)
  have hpos := List.length_pos_iff.2 (step_text_ne_nil start modes c cs)
  simp only [List.length_append] at hlen
  omega

/-- The steps that read `cs` from byte `start` on. -/
def steps (start : Nat) (modes : ModeStack) (cs : List Char) : List Step :=
  match cs with
  | [] => []
  | c :: cs =>
    let s := step start modes c cs
    s :: steps s.stop s.after s.rest
termination_by cs.length
decreasing_by exact length_step_rest_lt start modes c cs

@[simp] theorem steps_nil (start : Nat) (modes : ModeStack) : steps start modes [] = [] := by
  rw [steps]

theorem steps_cons (start : Nat) (modes : ModeStack) (c : Char) (cs : List Char) :
    steps start modes (c :: cs) =
      step start modes c cs ::
        steps (step start modes c cs).stop (step start modes c cs).after
          (step start modes c cs).rest := by
  rw [steps]

def scan (modes : ModeStack) (source : List Char) : List Step := steps 0 modes source

/-- The modes in which steps taken from `modes` end. -/
def endModes (modes : ModeStack) (taken : List Step) : ModeStack :=
  taken.foldl (fun _ s => s.after) modes

def tokens (modes : ModeStack) (source : List Char) : List Token :=
  (scan modes source).flatMap Step.tokens

def finalModes (modes : ModeStack) (source : List Char) : ModeStack :=
  endModes modes (scan modes source)

/-- The tokens that a highlighter colours. -/
def significant (ts : List Token) : List Token := ts.filter (!·.category.isTrivia)

/-- The steps of a scan read the source and nothing else. -/
theorem flatMap_text_steps (start : Nat) (modes : ModeStack) (cs : List Char) :
    (steps start modes cs).flatMap Step.text = cs := by
  fun_induction steps start modes cs with
  | case1 => rfl
  | case2 start modes c cs s ih => simp only [List.flatMap_cons, ih, s, step_split]

end Tokenizer
