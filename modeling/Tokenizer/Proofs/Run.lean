import Tokenizer.Proofs.Layout

/-!
Runs. Every step of a scan is taken where the steps before it stop, in the modes that they leave,
and the steps after it are the scan of what it has not read.
-/
namespace Tokenizer

@[simp] theorem endModes_nil (modes : ModeStack) : endModes modes [] = modes := rfl

@[simp] theorem endModes_cons (modes : ModeStack) (s : Step) (taken : List Step) :
    endModes modes (s :: taken) = endModes s.after taken := rfl

theorem endModes_append (modes : ModeStack) (xs ys : List Step) :
    endModes modes (xs ++ ys) = endModes (endModes modes xs) ys :=
  List.foldl_append

@[simp] theorem finalModes_nil (modes : ModeStack) : finalModes modes [] = modes := by
  simp [finalModes, scan]

/-- What a scan from byte `start` does at one of its steps. -/
theorem steps_eq_append_cons {start : Nat} {modes : ModeStack} {cs : List Char}
    {before after : List Step} {s : Step} (h : steps start modes cs = before ++ s :: after) :
    ∃ c rest, cs = before.flatMap Step.text ++ c :: rest ∧
      s = step (start + Text.width (before.flatMap Step.text)) (endModes modes before) c rest ∧
      after = steps s.stop s.after s.rest := by
  induction before generalizing start modes cs with
  | nil =>
    cases cs with
    | nil => simp at h
    | cons c rest =>
      rw [steps_cons, List.nil_append] at h
      obtain ⟨rfl, rfl⟩ := List.cons.inj h
      exact ⟨c, rest, rfl, rfl, rfl⟩
  | cons u before ih =>
    cases cs with
    | nil => simp at h
    | cons d ds =>
      rw [steps_cons, List.cons_append] at h
      obtain ⟨rfl, htail⟩ := List.cons.inj h
      obtain ⟨c, rest, hsplit, hs, hafter⟩ := ih htail
      refine ⟨c, rest, ?_, ?_, hafter⟩
      · rw [List.flatMap_cons, List.append_assoc, ← hsplit, step_split]
      · rw [hs, Step.stop, step_start, List.flatMap_cons, Text.width_append, Nat.add_assoc,
          endModes_cons]

end Tokenizer
