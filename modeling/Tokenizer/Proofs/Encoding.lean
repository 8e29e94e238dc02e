import Mathlib.Tactic.SplitIfs
import Tokenizer.ByteReader
import Tokenizer.Proofs.Uniform
import Tokenizer.Text.Width

/-!
Characters and their bytes. The first byte of a character tells its width, and beyond ASCII none of
the bytes of a character is ASCII. A class that does not tell characters beyond ASCII apart can
therefore be read byte by byte, also within characters.
-/
namespace Tokenizer

/-- The class at a byte, which stands for the character with its number. -/
def onByte (p : Char → Bool) (b : UInt8) : Bool := p (Char.ofNat b.toNat)

/-- A first byte, and as many more as it announces. -/
def IsLead (n : Nat) (ns : List Nat) : Prop :=
  n < 128 ∧ ns.length = 0 ∨ 192 ≤ n ∧ n ≤ 223 ∧ ns.length = 1 ∨
    224 ≤ n ∧ n ≤ 239 ∧ ns.length = 2 ∨ 240 ≤ n ∧ n ≤ 247 ∧ ns.length = 3

theorem ByteReader.charWidth_eq (b : UInt8) :
    charWidth b =
      if 192 ≤ b.toNat ∧ b.toNat ≤ 223 then 2
      else if 224 ≤ b.toNat ∧ b.toNat ≤ 239 then 3
      else if 240 ≤ b.toNat ∧ b.toNat ≤ 247 then 4
      else 1 := by
  simp [charWidth, UInt8.le_iff_toNat_le]

theorem ByteReader.charWidth_pos (b : UInt8) : 0 < charWidth b := by
  rw [charWidth_eq]
  split_ifs <;> omega

theorem IsLead.charWidth_eq {n : Nat} {ns : List Nat} (h : IsLead n ns) :
    ByteReader.charWidth (UInt8.ofNat n) = ns.length + 1 := by
  unfold IsLead at h
  have hlt : n < UInt8.size := by
    change n < 256
    omega
  rw [ByteReader.charWidth_eq, UInt8.toNat_ofNat_of_lt' hlt]
  split_ifs <;> omega

theorem exists_utf8EncodeChar (c : Char) :
    ∃ n ns, String.utf8EncodeChar c = (n :: ns).map UInt8.ofNat ∧ IsLead n ns ∧
      ∀ m ∈ n :: ns, m < 256 ∧ (m = c.toNat ∨ 128 ≤ m ∧ 128 ≤ c.toNat) := by
  rw [String.utf8EncodeChar, Char.toNat]
  generalize c.val.toNat = v
  split_ifs with hone htwo hthree
  · refine ⟨v, [], rfl, .inl ⟨by omega, rfl⟩, ?_⟩
    simp only [List.mem_singleton]
    omega
  · refine ⟨v / 64 % 32 + 192, [v % 64 + 128], rfl, .inr (.inl ⟨by omega, by omega, rfl⟩), ?_⟩
    simp only [List.mem_cons, List.not_mem_nil, or_false]
    omega
  · refine ⟨v / 4096 % 16 + 224, [v / 64 % 64 + 128, v % 64 + 128], rfl,
      .inr (.inr (.inl ⟨by omega, by omega, rfl⟩)), ?_⟩
    simp only [List.mem_cons, List.not_mem_nil, or_false]
    omega
  · refine ⟨v / 262144 % 8 + 240, [v / 4096 % 64 + 128, v / 64 % 64 + 128, v % 64 + 128], rfl,
      .inr (.inr (.inr ⟨by omega, by omega, rfl⟩)), ?_⟩
    simp only [List.mem_cons, List.not_mem_nil, or_false]
    omega

theorem utf8Size_of_ascii {c : Char} (h : c.toNat < 128) : c.utf8Size = 1 := by
  rw [Char.utf8Size_eq_one_iff, UInt32.le_iff_toNat_le]
  exact Nat.le_of_lt_succ h

/-- Every byte of a character belongs to a uniform class with the character. -/
theorem onByte_of_mem {p : Char → Bool} (hp : Uniform p) {c : Char} {b : UInt8}
    (hb : b ∈ String.utf8EncodeChar c) : onByte p b = p c := by
  obtain ⟨n, ns, hbytes, -, hns⟩ := exists_utf8EncodeChar c
  rw [hbytes] at hb
  obtain ⟨m, hm, rfl⟩ := List.mem_map.1 hb
  obtain ⟨hlt, hm⟩ := hns m hm
  rw [onByte, UInt8.toNat_ofNat_of_lt' hlt]
  rcases hm with rfl | ⟨hm, hc⟩
  · rw [Char.ofNat_toNat]
  · have hnumber : (Char.ofNat m).toNat = m := by
      rw [Char.ofNat, dif_pos (.inl (by omega))]
      rfl
    exact hp _ _ (by omega) hc

/-! ### The bytes of a text -/

namespace Text

theorem bytes_cons (c : Char) (cs : List Char) :
    bytes (c :: cs) = String.utf8EncodeChar c ++ bytes cs := by
  rw [bytes, List.flatMap_cons, bytes]

theorem bytes_append (xs ys : List Char) : bytes (xs ++ ys) = bytes xs ++ bytes ys :=
  List.flatMap_append

theorem drop_width_bytes (xs ys : List Char) : (bytes (xs ++ ys)).drop (width xs) = bytes ys := by
  rw [bytes_append, ← length_bytes, List.drop_left]

/-- A text that is not empty has a first byte, which tells the width of its first character. -/
theorem exists_bytes_cons (c : Char) (cs : List Char) :
    ∃ b bs, bytes (c :: cs) = b :: bs ∧ b ∈ String.utf8EncodeChar c ∧
      ByteReader.charWidth b = c.utf8Size := by
  obtain ⟨n, ns, hbytes, hlead, -⟩ := exists_utf8EncodeChar c
  have hsize := String.length_utf8EncodeChar c
  rw [hbytes, List.length_map, List.length_cons] at hsize
  rw [bytes_cons, hbytes]
  exact ⟨_, _, rfl, List.mem_cons_self, hlead.charWidth_eq.trans hsize⟩

variable {p : Char → Bool} (hp : Uniform p)
include hp

theorem any_onByte_head? (cs : List Char) :
    (bytes cs).head?.any (onByte p) = cs.head?.any p := by
  cases cs with
  | nil => rfl
  | cons c cs =>
    obtain ⟨b, bs, hbytes, hb, -⟩ := exists_bytes_cons c cs
    rw [hbytes]
    exact onByte_of_mem hp hb

/-- A run that is read byte by byte ends between two characters. -/
theorem takeWhile_onByte (cs : List Char) :
    (bytes cs).takeWhile (onByte p) = bytes (cs.takeWhile p) := by
  induction cs with
  | nil => rfl
  | cons c cs ih =>
    cases hc : p c with
    | true =>
      have hall : ∀ b ∈ String.utf8EncodeChar c, onByte p b = true := by
        intro b hb
        rw [onByte_of_mem hp hb, hc]
      rw [bytes_cons, List.takeWhile_append_of_pos hall, ih, List.takeWhile_cons_of_pos hc,
        bytes_cons]
    | false =>
      obtain ⟨b, bs, hbytes, hb, -⟩ := exists_bytes_cons c cs
      have hstop : ¬onByte p b = true := by simp [onByte_of_mem hp hb, hc]
      rw [hbytes, List.takeWhile_cons_of_neg hstop, List.takeWhile_cons_of_neg (by simp [hc])]
      rfl

end Text

/-! ### Reading a text -/

namespace ByteReader

theorem move_bytes (pos : Nat) (xs ys : List Char) :
    move (Text.width xs) ⟨pos, Text.bytes (xs ++ ys)⟩ =
      ⟨pos + Text.width xs, Text.bytes ys⟩ := by
  have hlen := Text.length_bytes (xs ++ ys)
  rw [Text.width_append] at hlen
  rw [move, Text.drop_width_bytes, hlen, Nat.min_eq_left (Nat.le_add_right _ _)]

theorem advanceChar_bytes (pos : Nat) (c : Char) (cs : List Char) :
    advanceChar ⟨pos, Text.bytes (c :: cs)⟩ = ⟨pos + c.utf8Size, Text.bytes cs⟩ := by
  obtain ⟨b, bs, hbytes, -, hwidth⟩ := Text.exists_bytes_cons c cs
  have hcurrent : current ⟨pos, Text.bytes (c :: cs)⟩ = b := by
    rw [hbytes]
    rfl
  rw [advanceChar, hcurrent, hwidth]
  exact move_bytes pos [c] cs

theorem advance_bytes (pos : Nat) {c : Char} (hc : c.toNat < 128) (cs : List Char) :
    advance ⟨pos, Text.bytes (c :: cs)⟩ = ⟨pos + c.utf8Size, Text.bytes cs⟩ := by
  have hmove := move_bytes pos [c] cs
  rw [Text.width_cons, Text.width_nil, utf8Size_of_ascii hc] at hmove
  rw [utf8Size_of_ascii hc]
  exact hmove

theorem eatWhile_bytes {p : Char → Bool} (hp : Uniform p) (pos : Nat) (cs : List Char) :
    eatWhile (onByte p) ⟨pos, Text.bytes cs⟩ =
      ⟨pos + Text.width (cs.takeWhile p), Text.bytes (cs.dropWhile p)⟩ := by
  have hrun : runLength (onByte p) (Text.bytes cs).length ⟨pos, Text.bytes cs⟩ =
      Text.width (cs.takeWhile p) := by
    rw [runLength, List.take_length, Text.takeWhile_onByte hp, Text.length_bytes]
  have hmove := move_bytes pos (cs.takeWhile p) (cs.dropWhile p)
  rw [List.takeWhile_append_dropWhile] at hmove
  rw [eatWhile, eatUpTo, hrun, hmove]

end ByteReader
end Tokenizer
