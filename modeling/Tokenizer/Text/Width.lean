/-!
Byte offsets into text. Text is a list of characters; an offset counts the bytes of its UTF-8
encoding, so `width` is the offset just past a text and `cut?` finds the place an offset names.
-/
namespace Tokenizer.Text

/-- Number of bytes in the UTF-8 encoding of `cs`. -/
def width (cs : List Char) : Nat :=
  cs.foldr (fun c n => c.utf8Size + n) 0

/-- The UTF-8 encoding of `cs`. -/
def bytes (cs : List Char) : List UInt8 :=
  cs.flatMap String.utf8EncodeChar

@[simp] theorem width_nil : width [] = 0 := rfl

@[simp] theorem width_cons (c : Char) (cs : List Char) :
    width (c :: cs) = c.utf8Size + width cs := rfl

@[simp] theorem width_append (xs ys : List Char) : width (xs ++ ys) = width xs + width ys := by
  induction xs with
  | nil => simp
  | cons c xs ih => simp [ih, Nat.add_assoc]

theorem width_pos {cs : List Char} (h : cs ≠ []) : 0 < width cs := by
  cases cs with
  | nil => exact absurd rfl h
  | cons c cs =>
    have := c.utf8Size_pos
    simp only [width_cons]
    omega

/-- Offsets count the bytes of the encoding. -/
theorem length_bytes (cs : List Char) : (bytes cs).length = width cs := by
  induction cs with
  | nil => rfl
  | cons c cs ih =>
    simp only [bytes, List.flatMap_cons, List.length_append] at ih ⊢
    simp [ih]

/--
Splits `cs` at byte offset `n`: the characters before it and those after. An offset past the end,
or inside a character, has no such place.
-/
def cut? : Nat → List Char → Option (List Char × List Char)
  | 0, cs => some ([], cs)
  | _ + 1, [] => none
  | n + 1, c :: cs =>
    if c.utf8Size ≤ n + 1 then
      (cut? (n + 1 - c.utf8Size) cs).map fun p => (c :: p.1, p.2)
    else
      none

/-- The two halves of a cut make up the text, and the first half ends at the offset. -/
theorem eq_of_cut? {n : Nat} {cs xs ys : List Char} (h : cut? n cs = some (xs, ys)) :
    cs = xs ++ ys ∧ width xs = n := by
  fun_induction cut? n cs generalizing xs ys with
  | case1 cs =>
    obtain ⟨rfl, rfl⟩ : [] = xs ∧ cs = ys := by simpa using h
    simp
  | case2 => simp at h
  | case3 n c cs hc ih =>
    obtain ⟨⟨as, bs⟩, hp, heq⟩ := Option.map_eq_some_iff.1 h
    obtain ⟨rfl, rfl⟩ : c :: as = xs ∧ bs = ys := by simpa using heq
    obtain ⟨rfl, hw⟩ := ih hp
    simp only [List.cons_append, width_cons, hw, true_and]
    omega
  | case4 => simp at h

/-- Every boundary between characters is a place to cut. -/
@[simp] theorem cut?_width_append (xs ys : List Char) :
    cut? (width xs) (xs ++ ys) = some (xs, ys) := by
  induction xs with
  | nil => cases ys <;> rfl
  | cons c xs ih =>
    have hc := c.utf8Size_pos
    obtain ⟨n, hn⟩ : ∃ n, c.utf8Size + width xs = n + 1 :=
      ⟨c.utf8Size + width xs - 1, by omega⟩
    have hle : c.utf8Size ≤ n + 1 := by omega
    have hsub : n + 1 - c.utf8Size = width xs := by omega
    simp [width_cons, hn, cut?, hle, hsub, ih]

/-- Number of characters of `cs` that start before byte `n`. -/
def charsBefore : Nat → List Char → Nat
  | 0, _ => 0
  | _ + 1, [] => 0
  | n + 1, c :: cs => charsBefore (n + 1 - c.utf8Size) cs + 1

/-- At a boundary between characters, the characters before it are counted. -/
@[simp] theorem charsBefore_width_append (xs ys : List Char) :
    charsBefore (width xs) (xs ++ ys) = xs.length := by
  induction xs with
  | nil => cases ys <;> rfl
  | cons c xs ih =>
    have hc := c.utf8Size_pos
    obtain ⟨n, hn⟩ : ∃ n, c.utf8Size + width xs = n + 1 :=
      ⟨c.utf8Size + width xs - 1, by omega⟩
    have hsub : n + 1 - c.utf8Size = width xs := by omega
    simp [width_cons, hn, charsBefore, hsub, ih]

end Tokenizer.Text
