import Mathlib.Data.List.TakeWhile
import Tokenizer.Proofs.Lookahead
import Tokenizer.Proofs.Matching
import Tokenizer.Scan

/-!
Filler: the characters that a mode reads in runs of any length. They are white space in code, and
plain text inside a region. Line breaks are filler in every mode, and no other rule looks at or
beyond a line break.
-/
namespace Tokenizer

open CharClass

theorem takeWhile_append_of_not_all {p : Char → Bool} {xs : List Char}
    (h : ¬∀ x ∈ xs, p x = true) (ys : List Char) :
    (xs ++ ys).takeWhile p = xs.takeWhile p := by
  rw [List.takeWhile_append, if_neg]
  intro hlen
  exact h (List.takeWhile_eq_self_iff.1 ((List.takeWhile_prefix p).eq_of_length hlen))

theorem dropWhile_append_of_not_all {p : Char → Bool} {xs : List Char}
    (h : ¬∀ x ∈ xs, p x = true) (ys : List Char) :
    (xs ++ ys).dropWhile p = xs.dropWhile p ++ ys := by
  rw [List.dropWhile_append, if_neg]
  intro hnil
  exact h (List.dropWhile_eq_nil_iff.1 (List.isEmpty_iff.1 hnil))

namespace Mode

def isFiller : Mode → Char → Bool
  | root | whitespace => isSpace
  | inside .string => fun c => c != '\\' && c != '"'
  | inside .blockComment | inside .docComment => fun c => c != '/' && c != '*'

def fillerCategory : Mode → Category
  | root | whitespace => .whitespace
  | inside .string => .string
  | inside .blockComment => .blockComment
  | inside .docComment => .docComment

def fillerName : Mode → String
  | root | whitespace => "whitespace"
  | inside .string => "string.text"
  | inside .blockComment => "comment.text"
  | inside .docComment => "doc.text"

def fillerRule (m : Mode) : Rule :=
  ⟨m.fillerName, .run1 m.isFiller, .emit m.fillerCategory, .stay⟩

def rulesBeforeFiller : Mode → List Rule
  | root => [⟨"identifier", .identifier, .classify .identifierLike, .stay⟩]
  | _ => []

def rulesAfterFiller (m : Mode) : List Rule := m.rules.drop (m.rulesBeforeFiller.length + 1)

theorem rules_eq (m : Mode) : m.rules = m.rulesBeforeFiller ++ m.fillerRule :: m.rulesAfterFiller := by
  cases m with
  | inside region => cases region <;> rfl
  | _ => rfl

theorem isFiller_of_isLineBreak (m : Mode) {b : Char} (h : isLineBreak b = true) :
    m.isFiller b = true := by
  obtain rfl | rfl : b = '\n' ∨ b = '\r' := by simpa [isLineBreak] using h
  all_goals
    cases m with
    | inside region => cases region <;> decide
    | _ => decide

/-- Only the rule for filler reads line breaks or looks beyond them. -/
theorem avoids_of_isLineBreak (m : Mode) {b : Char} (h : isLineBreak b = true) :
    ∀ rule ∈ m.rulesBeforeFiller ++ m.rulesAfterFiller, rule.pattern.avoids b = true := by
  obtain rfl | rfl : b = '\n' ∨ b = '\r' := by simpa [isLineBreak] using h
  all_goals
    cases m with
    | inside region => cases region <;> decide
    | _ => decide

theorem canStart_rulesBeforeFiller (m : Mode) {c : Char} (h : m.isFiller c = true) :
    ∀ rule ∈ m.rulesBeforeFiller, rule.pattern.canStart c = false := by
  cases m with
  | root =>
    obtain (rfl | rfl) | rfl | rfl : (c = ' ' ∨ c = '\t') ∨ c = '\n' ∨ c = '\r' := by
      simpa [isFiller, isSpace, isHorizontalSpace, isLineBreak] using h
    all_goals decide
  | whitespace => simp [rulesBeforeFiller]
  | inside region => simp [rulesBeforeFiller]

theorem match?_fillerRule (m : Mode) (c : Char) (cs : List Char) :
    m.fillerRule.match? (c :: cs) =
      if m.isFiller c then
        some ⟨(c :: cs).takeWhile m.isFiller, (c :: cs).dropWhile m.isFiller⟩
      else none := by
  cases h : m.isFiller c with
  | true => simp [Rule.match?, fillerRule, h]
  | false => simp [Rule.match?, fillerRule, h]

/-- A text that is not all filler gives the rule for filler the same match when it goes on. -/
theorem match?_fillerRule_append (m : Mode) {xs : List Char}
    (hxs : ¬∀ x ∈ xs, m.isFiller x = true) (zs : List Char) :
    m.fillerRule.match? (xs ++ zs) = (m.fillerRule.match? xs).map (·.extend zs) := by
  cases xs with
  | nil => simp at hxs
  | cons c cs =>
    rw [List.cons_append, match?_fillerRule, match?_fillerRule]
    cases hc : m.isFiller c with
    | false => rfl
    | true =>
      have htake := takeWhile_append_of_not_all hxs zs
      have hdrop := dropWhile_append_of_not_all hxs zs
      rw [List.cons_append] at htake hdrop
      simp only [htake, hdrop, ↓reduceIte, Option.map_some, Match.extend]

/-- Where filler comes next, all of it is read. -/
theorem first?_of_isFiller (m : Mode) {c : Char} (h : m.isFiller c = true) (cs : List Char) :
    Rule.first? m.rules (c :: cs) =
      some (m.fillerRule, ⟨(c :: cs).takeWhile m.isFiller, (c :: cs).dropWhile m.isFiller⟩) := by
  have hbefore : (m.rulesBeforeFiller.findSome? fun rule =>
      (rule.match? (c :: cs)).map fun m => (rule, m)) = none := by
    rw [List.findSome?_eq_none_iff]
    intro rule hmem
    rw [Rule.match?_eq_none_of_canStart (m.canStart_rulesBeforeFiller h rule hmem)]
    rfl
  rw [rules_eq, Rule.first?, List.findSome?_append, hbefore, List.findSome?_cons,
    match?_fillerRule, if_pos h]
  rfl

/--
A line break after a text that is not all filler changes nothing: the same rule matches the same
part of the text, whatever follows the break.
-/
theorem first?_append_of_isLineBreak (m : Mode) {b : Char} (hb : isLineBreak b = true)
    {xs : List Char} (hxs : ¬∀ x ∈ xs, m.isFiller x = true) (ys : List Char) :
    Rule.first? m.rules (xs ++ b :: ys) =
      (Rule.first? m.rules xs).map fun p => (p.1, p.2.extend (b :: ys)) := by
  apply Rule.first?_append
  intro rule hmem
  rw [rules_eq, List.mem_append, List.mem_cons, or_left_comm, ← List.mem_append] at hmem
  rcases hmem with rfl | hmem
  · exact m.match?_fillerRule_append hxs (b :: ys)
  · exact rule.match?_append_of_avoids (m.avoids_of_isLineBreak hb rule hmem) xs ys

end Mode

/-- The same step in a source that goes on. -/
def Step.extend (s : Step) (cs : List Char) : Step := { s with rest := s.rest ++ cs }

@[simp] theorem Step.tokens_extend (s : Step) (cs : List Char) : (s.extend cs).tokens = s.tokens :=
  rfl

@[simp] theorem Step.after_extend (s : Step) (cs : List Char) : (s.extend cs).after = s.after :=
  rfl

@[simp] theorem Step.stop_extend (s : Step) (cs : List Char) : (s.extend cs).stop = s.stop := rfl

theorem step_of_isFiller (start : Nat) (modes : ModeStack) {c : Char}
    (h : modes.top.isFiller c = true) (cs : List Char) :
    step start modes c cs =
      ⟨start, modes, some modes.top.fillerRule, (c :: cs).takeWhile modes.top.isFiller,
        (c :: cs).dropWhile modes.top.isFiller⟩ := by
  rw [step, modes.top.first?_of_isFiller h]

/-- A step that does not read filler up to a line break is the same without the break. -/
theorem step_append_of_isLineBreak (start : Nat) (modes : ModeStack) {b c : Char}
    (hb : isLineBreak b = true) {cs : List Char}
    (h : ¬∀ x ∈ c :: cs, modes.top.isFiller x = true) (ys : List Char) :
    step start modes c (cs ++ b :: ys) = (step start modes c cs).extend (b :: ys) := by
  rw [step, step, ← List.cons_append, modes.top.first?_append_of_isLineBreak hb h]
  cases Rule.first? modes.top.rules (c :: cs) <;> rfl

end Tokenizer
