import Tokenizer.Proofs.ByteReading
import Tokenizer.Proofs.Lookahead

/-!
ASCII in any bytes. A pattern whose classes lie within ASCII can be read off bytes that are no
text at all, or from a place inside a character: it sees the characters that the single bytes
number, and it passes over none but ASCII ones.
-/
namespace Tokenizer

def byteChar (b : UInt8) : Char := Char.ofNat b.toNat

theorem toNat_byteChar (b : UInt8) : (byteChar b).toNat = b.toNat := by
  have hlt := b.toNat_lt
  rw [byteChar, Char.ofNat, dif_pos (.inl (by omega))]
  rfl

theorem Pattern.everyClass_ascii {a : Pattern} (hu : a.EveryClass Uniform)
    (h : a.avoids '\u0080' = true) : a.EveryClass Ascii := by
  induction a with
  | empty => trivial
  | one p _ | run p | run1 p | notBefore p => exact hu.ascii (by simpa [avoids] using h)
  | seq a b iha ihb | orElse a b iha ihb =>
    obtain ⟨ha, hb⟩ : a.avoids '\u0080' = true ∧ b.avoids '\u0080' = true := by
      simpa [avoids] using h
    exact ⟨iha hu.1 ha, ihb hu.2 hb⟩
  | many unit ih => exact ih hu h

theorem Pattern.readsOnly_ascii {a : Pattern} (ha : a.EveryClass Ascii) :
    a.ReadsOnly fun c => c.toNat < 128 := by
  induction a with
  | empty | notBefore _ => trivial
  | one p _ | run p | run1 p => exact ha
  | seq a b iha ihb | orElse a b iha ihb => exact ⟨iha ha.1, ihb ha.2⟩
  | many unit ih => exact ih ha

/-! ### Bytes of ASCII texts -/

namespace Text

theorem bytes_of_ascii {w : List Char} (h : ∀ c ∈ w, c.toNat < 128) :
    bytes w = w.map fun c => UInt8.ofNat c.toNat := by
  induction w with
  | nil => rfl
  | cons c w ih =>
    obtain ⟨hc, hw⟩ := List.forall_mem_cons.1 h
    obtain ⟨n, ns, hbytes, hlead, hns⟩ := exists_utf8EncodeChar c
    have hn : n = c.toNat := by
      rcases (hns n List.mem_cons_self).2 with hn | ⟨-, hle⟩
      · exact hn
      · omega
    have hnil : ns = [] := by
      unfold IsLead at hlead
      apply List.eq_nil_of_length_eq_zero
      omega
    rw [bytes_cons, hbytes, hnil, hn, ih hw]
    rfl

theorem width_of_ascii {w : List Char} (h : ∀ c ∈ w, c.toNat < 128) : width w = w.length := by
  rw [← length_bytes, bytes_of_ascii h, List.length_map]

/-- An ASCII text stands in front of bytes exactly if its characters are those they number. -/
theorem bytes_prefix_iff {w : List Char} (h : ∀ c ∈ w, c.toNat < 128) (bs : List UInt8) :
    bytes w <+: bs ↔ w <+: bs.map byteChar := by
  rw [bytes_of_ascii h]
  induction w generalizing bs with
  | nil => simp
  | cons c w ih =>
    obtain ⟨hc, hw⟩ := List.forall_mem_cons.1 h
    cases bs with
    | nil => simp
    | cons b bs =>
      have hb : UInt8.ofNat c.toNat = b ↔ c = byteChar b := by
        constructor
        · rintro rfl
          rw [byteChar, UInt8.toNat_ofNat_of_lt' (by change c.toNat < 256; omega),
            Char.ofNat_toNat]
        · rintro rfl
          rw [toNat_byteChar, UInt8.ofNat_toNat]
      rw [List.map_cons, List.map_cons, List.cons_prefix_cons, List.cons_prefix_cons, ih hw, hb]

end Text

/-! ### Readers -/

namespace ByteReader

theorem move_zero (r : ByteReader) : r.move 0 = r := by
  simp [move]

theorem move_move (m n : Nat) (r : ByteReader) : (r.move m).move n = r.move (m + n) := by
  simp only [move, List.drop_drop, List.length_drop, mk.injEq, and_true]
  omega

end ByteReader

namespace Pattern

/-- What a reader sees if it takes each byte for a character. -/
def seen (r : ByteReader) : List Char := r.ahead.map byteChar

theorem seen_move_of_split {r : ByteReader} {m : Match} (h : m.text ++ m.rest = seen r) :
    seen (r.move m.text.length) = m.rest := by
  have hdrop := congrArg (List.drop m.text.length) h
  rw [List.drop_left] at hdrop
  rw [hdrop]
  exact List.map_drop

theorem readRepeatedly_of_ascii {unit : Pattern}
    (h : ∀ r, unit.read? r = (unit.match? (seen r)).map fun m => r.move m.text.length)
    (r : ByteReader) :
    readRepeatedly unit.read? r = r.move (repeated unit.match? (seen r)).text.length := by
  induction hn : r.ahead.length using Nat.strong_induction_on generalizing r with
  | _ n ih =>
    rw [readRepeatedly, repeated, h r]
    cases hm : unit.match? (seen r) with
    | none => simp [ByteReader.move_zero]
    | some m =>
      have hsplit := unit.match?_split hm
      have hlength := congrArg List.length hsplit
      simp only [seen, List.length_append, List.length_map] at hlength
      have hahead : (r.move m.text.length).ahead.length = m.rest.length := by
        simp only [ByteReader.move, List.length_drop]
        omega
      have hseen : (seen r).length = r.ahead.length := by simp [seen]
      simp only [Option.map_some, hahead, hseen]
      split
      · rename_i hlt
        have hrest := ih m.rest.length (by omega) (r.move m.text.length) hahead
        rw [hrest, seen_move_of_split hsplit, ByteReader.move_move]
        simp [Match.append]
      · simp [ByteReader.move_zero]

theorem eatWhile_eq_move (p : Char → Bool) (r : ByteReader) :
    r.eatWhile (onByte p) = r.move ((seen r).takeWhile p).length := by
  have htake : ((seen r).takeWhile p).length = (r.ahead.takeWhile (onByte p)).length := by
    rw [seen, List.takeWhile_map, List.length_map]
    rfl
  rw [htake, ByteReader.eatWhile, ByteReader.eatUpTo, ByteReader.runLength, List.take_length]

/-- A pattern within ASCII is read as it is matched on the characters that the bytes number. -/
theorem read?_of_ascii {a : Pattern} (ha : a.EveryClass Ascii) (r : ByteReader) :
    a.read? r = (a.match? (seen r)).map fun m => r.move m.text.length := by
  induction a generalizing r with
  | empty => simp [read?, match?, ByteReader.move_zero]
  | one p stride =>
    obtain ⟨pos, ahead⟩ := r
    cases ahead with
    | nil => rfl
    | cons b bs =>
      cases hb : p (byteChar b) with
      | false =>
        have hbyte : onByte p b = false := hb
        simp [read?, seen, hb, hbyte]
      | true =>
        have hbyte : onByte p b = true := hb
        have hlt := ha _ hb
        rw [toNat_byteChar] at hlt
        have hwidth : ByteReader.charWidth b = 1 := by
          rw [ByteReader.charWidth_eq]
          split_ifs <;> omega
        have hpass : ByteReader.pass ⟨pos, b :: bs⟩ stride = ByteReader.move 1 ⟨pos, b :: bs⟩ := by
          cases stride with
          | byte => rfl
          | whole => simp [ByteReader.pass, ByteReader.advanceChar, ByteReader.current, hwidth]
        simp [read?, seen, hb, hbyte, hpass]
  | run p => simp [read?, match?, eatWhile_eq_move]
  | run1 p =>
    obtain ⟨pos, ahead⟩ := r
    rw [read?, eatWhile_eq_move]
    cases ahead with
    | nil => simp [seen, ByteReader.move]
    | cons b bs =>
      cases hb : p (byteChar b) with
      | false => simp [seen, ByteReader.move, hb]
      | true => simp [seen, ByteReader.move, hb]
  | notBefore p =>
    have hhead : (seen r).head?.any p = r.ahead.head?.any (onByte p) := by
      rw [seen, List.head?_map, Option.any_map]
      rfl
    rw [read?, match?_notBefore, hhead]
    split <;> simp [ByteReader.move_zero]
  | seq a b iha ihb =>
    rw [read?, iha ha.1]
    change _ = ((a ++ b).match? (seen r)).map _
    rw [match?_append]
    cases hm : a.match? (seen r) with
    | none => rfl
    | some m =>
      have hrest := ihb ha.2 (r.move m.text.length)
      rw [seen_move_of_split (a.match?_split hm)] at hrest
      simp only [Option.map_some, Option.bind_some, hrest, Option.map_map]
      congr 1
      funext n
      simp [Match.append, ByteReader.move_move]
  | orElse a b iha ihb =>
    rw [read?, iha ha.1, ihb ha.2, match?]
    cases a.match? (seen r) <;> rfl
  | many unit ih =>
    rw [read?, readRepeatedly_of_ascii (ih ha)]
    rfl

end Pattern
end Tokenizer
