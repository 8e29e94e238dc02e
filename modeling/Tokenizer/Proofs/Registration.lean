import Mathlib.Data.Finset.Card
import Tokenizer.Language.Registry

/-!
Histories of registrations. Whatever languages are registered, and in whatever order, a registry
knows those that were the first to come with their id, and shows nothing of the others.
-/
namespace Tokenizer

/-- The language comes with the first of the calls that have its id. -/
def Language.IsFirst (calls : List Language) (l : Language) : Prop :=
  ∃ before after, calls = before ++ l :: after ∧ ∀ k ∈ before, k.id ≠ l.id

theorem Language.isFirst_iff {calls : List Language} {l : Language} :
    l.IsFirst calls ↔ calls.find? (·.id == l.id) = some l := by
  rw [List.find?_eq_some_iff_append]
  simp [IsFirst]

namespace Registry

/-- Registers languages in turn: what came of each call, and the registry after the last. -/
def registerAll : Registry → List Language → List Registration × Registry
  | r, [] => ([], r)
  | r, l :: ls =>
    let (outcome, next) := r.register l
    let (outcomes, last) := next.registerAll ls
    (outcome :: outcomes, last)

/--
What a look-up by extension may find. It takes the first language that claims the extension, but
the order in which it goes through the languages is left open.
-/
def MayFind (r : Registry) (extension : String) (found : Option Language) : Prop :=
  ∃ order : List Language, order.Perm r.languages ∧
    order.find? (·.extensions.contains extension) = found

/-- All that a registration can do: leave the registry alone or add the language at its end. -/
theorem register_cases (r : Registry) (l : Language) :
    (∃ kept, r.get? l.id = some kept ∧ r.register l = (.alreadyRegistered, r)) ∨
    r.get? l.id = none ∧ r.register l = (.registered, ⟨r.languages ++ [l]⟩) := by
  unfold register
  cases h : r.get? l.id with
  | some kept => exact .inl ⟨kept, rfl, rfl⟩
  | none => exact .inr ⟨rfl, rfl⟩

theorem registerAll_append (r : Registry) (xs ys : List Language) :
    r.registerAll (xs ++ ys) =
      ((r.registerAll xs).1 ++ ((r.registerAll xs).2.registerAll ys).1,
        ((r.registerAll xs).2.registerAll ys).2) := by
  induction xs generalizing r with
  | nil => rfl
  | cons l xs ih =>
    simp only [List.cons_append, registerAll]
    rw [ih]

theorem length_registerAll (r : Registry) (calls : List Language) :
    (r.registerAll calls).1.length = calls.length := by
  induction calls generalizing r with
  | nil => rfl
  | cons l calls ih => simp [registerAll, ih]

theorem registerAll_append_singleton (r : Registry) (calls : List Language) (l : Language) :
    (r.registerAll (calls ++ [l])).2 = ((r.registerAll calls).2.register l).2 := by
  rw [registerAll_append]
  rfl

/-! ### What a registry keeps of its history -/

/-- The registry holds what calls have left in it: under each id the first language, once. -/
structure Keeps (r : Registry) (calls : List Language) : Prop where
  get? : ∀ id, r.get? id = calls.find? (·.id == id)
  nodup : (r.languages.map Language.id).Nodup

theorem keeps_nil : Keeps {} [] where
  get? := by
    intro id
    rfl
  nodup := List.nodup_nil

/-- One more registration is kept, or is none because its id is taken. -/
theorem Keeps.register {r : Registry} {calls : List Language} (h : r.Keeps calls) (l : Language) :
    (r.register l).2.Keeps (calls ++ [l]) where
  get? := by
    intro id
    rw [List.find?_append, ← h.get? id]
    by_cases hid : l.id = id
    · subst hid
      rw [get?_register_self]
      cases r.get? l.id <;> simp
    · rw [get?_register_of_ne r l hid]
      simp [hid]
  nodup := by
    rcases r.register_cases l with ⟨kept, -, hregister⟩ | ⟨hnone, hregister⟩
    · rw [hregister]
      exact h.nodup
    · have hfresh : ∀ k ∈ r.languages, k.id ≠ l.id := by
        intro k hk
        have hk := List.find?_eq_none.1 hnone k hk
        simpa using hk
      rw [hregister, List.map_append, List.map_singleton, List.nodup_append]
      refine ⟨h.nodup, List.nodup_singleton _, ?_⟩
      intro id hid id' hid'
      obtain ⟨k, hk, hkid⟩ := List.mem_map.1 hid
      rw [← hkid, List.mem_singleton.1 hid']
      exact hfresh k hk

theorem Keeps.registerAll {r : Registry} {before : List Language} (h : r.Keeps before)
    (calls : List Language) : (r.registerAll calls).2.Keeps (before ++ calls) := by
  induction calls generalizing r before with
  | nil =>
    rw [List.append_nil]
    exact h
  | cons l calls ih =>
    have hrest := ih (h.register l)
    rw [List.append_assoc] at hrest
    exact hrest

theorem keeps_registerAll (calls : List Language) : (registerAll {} calls).2.Keeps calls :=
  keeps_nil.registerAll calls

section
variable {r : Registry} {calls : List Language} (h : r.Keeps calls)
include h

/-- The registered languages are those that came first with their ids. -/
theorem Keeps.mem_languages_iff {l : Language} : l ∈ r.languages ↔ l.IsFirst calls := by
  rw [Language.isFirst_iff, ← h.get? l.id]
  constructor
  · intro hl
    obtain ⟨before, after, hsplit⟩ := List.append_of_mem hl
    have hnodup := h.nodup
    rw [hsplit, List.map_append, List.map_cons, List.nodup_append] at hnodup
    unfold Registry.get?
    rw [List.find?_eq_some_iff_append]
    refine ⟨by simp, before, after, hsplit, ?_⟩
    intro k hk
    have hne := hnodup.2.2 k.id (List.mem_map_of_mem hk) l.id List.mem_cons_self
    simpa using hne
  · intro hl
    exact List.mem_of_find?_eq_some hl

theorem Keeps.get?_eq_none_iff (id : String) : r.get? id = none ↔ ∀ l ∈ calls, l.id ≠ id := by
  rw [h.get? id, List.find?_eq_none]
  simp

theorem Keeps.size_eq : r.size = (calls.map Language.id).toFinset.card := by
  have hids : (r.languages.map Language.id).toFinset = (calls.map Language.id).toFinset := by
    ext id
    -- an id is free in the registry exactly if no call had it
    have hfree := h.get?_eq_none_iff id
    unfold Registry.get? at hfree
    rw [List.find?_eq_none] at hfree
    rw [List.mem_toFinset, List.mem_toFinset, ← not_iff_not]
    simpa using hfree
  rw [← hids, List.toFinset_card_of_nodup h.nodup, List.length_map]
  rfl

theorem Keeps.isEmpty_iff : r.isEmpty = true ↔ calls = [] := by
  have hsize := h.size_eq
  unfold size at hsize
  unfold isEmpty
  rw [List.isEmpty_iff, ← List.length_eq_zero_iff, hsize]
  simp

theorem Keeps.register_eq_registered_iff (l : Language) :
    (r.register l).1 = .registered ↔ ∀ k ∈ calls, k.id ≠ l.id := by
  rw [← h.get?_eq_none_iff]
  rcases r.register_cases l with ⟨kept, hget, hregister⟩ | ⟨hnone, hregister⟩
  · simp [hregister, hget]
  · simp [hregister, hnone]

/-- In whatever order the languages are searched, only those that came first can be found. -/
theorem Keeps.mayFind {extension : String} {found : Option Language}
    (hfound : r.MayFind extension found) :
    (found = none ↔ ∀ l : Language, l.IsFirst calls → extension ∉ l.extensions) ∧
      ∀ l : Language, found = some l → l.IsFirst calls ∧ extension ∈ l.extensions := by
  obtain ⟨order, hperm, rfl⟩ := hfound
  constructor
  · rw [List.find?_eq_none]
    constructor
    · intro hnone l hl
      have hmem := hperm.mem_iff.2 (h.mem_languages_iff.2 hl)
      simpa using hnone l hmem
    · intro hnone l hl
      have hfirst := h.mem_languages_iff.1 (hperm.mem_iff.1 hl)
      simpa using hnone l hfirst
  · intro l hl
    have hmem := hperm.mem_iff.1 (List.mem_of_find?_eq_some hl)
    have hclaims := List.find?_some hl
    exact ⟨h.mem_languages_iff.1 hmem, by simpa using hclaims⟩

end

/--
The first registration of an id wins, over any history of calls on a new registry. A call takes its
language up exactly if no earlier call had the id, and otherwise changes nothing. In the end each id
gives the language of its first call, there are as many languages as there are ids, and a look-up by
extension finds a language that came first with its id and claims the extension, if there is one.
-/
theorem registerAll_first_wins (calls : List Language) :
    (∀ before l after, calls = before ++ l :: after →
      ∃ outcome, (registerAll {} calls).1[before.length]? = some outcome ∧
        (outcome = .registered ↔ ∀ k ∈ before, k.id ≠ l.id) ∧
        (outcome = .alreadyRegistered →
          (registerAll {} (before ++ [l])).2 = (registerAll {} before).2)) ∧
    (∀ id, (registerAll {} calls).2.get? id = calls.find? (·.id == id)) ∧
    (registerAll {} calls).2.size = (calls.map Language.id).toFinset.card ∧
    ((registerAll {} calls).2.isEmpty = true ↔ calls = []) ∧
    ∀ extension, (registerAll {} calls).2.MayFind extension
        ((registerAll {} calls).2.forExtension? extension) ∧
      ∀ found, (registerAll {} calls).2.MayFind extension found →
        (found = none ↔ ∀ l : Language, l.IsFirst calls → extension ∉ l.extensions) ∧
        ∀ l : Language, found = some l → l.IsFirst calls ∧ extension ∈ l.extensions := by
  have hkeeps := keeps_registerAll calls
  refine ⟨?_, hkeeps.get?, hkeeps.size_eq, hkeeps.isEmpty_iff, ?_⟩
  · rintro before l after rfl
    have hbefore := keeps_registerAll before
    refine ⟨((registerAll {} before).2.register l).1, ?_,
      hbefore.register_eq_registered_iff l, ?_⟩
    · rw [registerAll_append, ← length_registerAll {} before]
      simp [registerAll]
    · intro halready
      rw [registerAll_append_singleton]
      rcases (registerAll {} before).2.register_cases l with ⟨_, -, hregister⟩ | ⟨-, hregister⟩
      · rw [hregister]
      · rw [hregister] at halready
        contradiction
  · intro extension
    refine ⟨⟨_, List.Perm.refl _, rfl⟩, ?_⟩
    intro found hfound
    exact hkeeps.mayFind hfound

/-- A second language with the id of the first is not taken up, and what it claims is not found. -/
theorem registerAll_first_wins_impostor :
    (registerAll {} [.leia, { Language.leia with extensions := ["other"] }]).1[1]? =
        some .alreadyRegistered ∧
      ∀ found, (registerAll {} [.leia, { Language.leia with extensions := ["other"] }]).2.MayFind
        "other" found → found = none := by
  obtain ⟨hcalls, -, -, -, hfind⟩ := registerAll_first_wins
    [.leia, { Language.leia with extensions := ["other"] }]
  obtain ⟨outcome, houtcome, hregistered, -⟩ := hcalls [.leia] _ [] rfl
  constructor
  · cases outcome with
    | registered => exact absurd rfl (hregistered.1 rfl .leia List.mem_cons_self)
    | alreadyRegistered => exact houtcome
  · intro found hfound
    apply ((hfind "other").2 found hfound).1.2
    intro l hl
    rw [Language.isFirst_iff, List.find?_cons] at hl
    split at hl
    · rw [← Option.some.inj hl]
      decide
    · rename_i hid
      change (Language.leia.id == l.id) = false at hid
      simp [hid] at hl

end Registry
end Tokenizer
