import ByteExact.ByteOrder.Slice
import ByteExact.Encoder
import ByteExact.Proofs.Cursor
import Mathlib.Data.Nat.Digits.Lemmas
/-!
# Words in place

What is written over the first bytes of a buffer and read there is what an encoder writes and a
decoder reads for the same width and order, so that the two ways of moving words can be mixed.

Results:
* `Digits.map_toNat_little`: the bytes of a number are its base-256 digits, padded to the width.
* `get?_bytes_append`, `put?_word_take`: a word that was written is read, and writing what was read
  changes nothing.
* `word_in_place`: what writing and reading in place come to.
-/
namespace ByteExact

namespace Digits

theorem ofDigits_map_toNat (bs : List UInt8) :
    Nat.ofDigits 256 (bs.map UInt8.toNat) = value bs := by
  induction bs with
  | nil => rfl
  | cons b bs ih => rw [List.map_cons, Nat.ofDigits_cons, ih, value]

theorem map_toNat_little {w n : Nat} (h : n < weight w) :
    (little w n).map UInt8.toNat = Nat.digitsAppend 256 w n := by
  have hvalue : Nat.ofDigits 256 ((little w n).map UInt8.toNat) = n := by
    rw [ofDigits_map_toNat, value_little, Nat.mod_eq_of_lt h]
  have hdigits : (little w n).map UInt8.toNat ∈
      {digits : List Nat | digits.length = w ∧ ∀ d ∈ digits, d < 256} := by
    refine ⟨by simp, ?_⟩
    intro d hd
    obtain ⟨b, -, rfl⟩ := List.mem_map.1 hd
    exact b.toNat_lt
  -- digits of one length are settled by the number that they spell
  have hback := (Nat.setInvOn_digitsAppend_ofDigits (by decide : 1 < 256) w).1 hdigits
  rw [hvalue] at hback
  exact hback.symm

end Digits

namespace ByteOrder

/-- The `w` base-256 digits of `n` as they stand in this order. -/
def digits (order : ByteOrder) (w n : Nat) : List Nat :=
  match order with
  | big => (Nat.digitsAppend 256 w n).reverse
  | little => Nat.digitsAppend 256 w n

theorem map_toNat_bytes (order : ByteOrder) (w : Nat) (v : Word w) :
    (order.bytes w v.toNat).map UInt8.toNat = order.digits w v.toNat := by
  have hlittle := Digits.map_toNat_little v.toNat_lt_weight
  cases order with
  | big => rw [bytes, List.map_reverse, hlittle, digits]
  | little => rw [bytes, hlittle, digits]

theorem get?_bytes_append (order : ByteOrder) {w : Nat} (v : Word w) (rest : List UInt8) :
    order.get? w (order.bytes w v.toNat ++ rest) = some v := by
  have hlength : (order.bytes w v.toNat).length = w := order.length_bytes w v.toNat
  have hle : w ≤ (order.bytes w v.toNat ++ rest).length := by
    rw [List.length_append, hlength]
    exact Nat.le_add_right w rest.length
  rw [get?_of_le order hle, List.take_left' hlength, word_bytes]

theorem put?_word_take (order : ByteOrder) {w : Nat} {buffer : List UInt8}
    (h : w ≤ buffer.length) : order.put? w buffer (order.word w (buffer.take w)) = some buffer := by
  have hlength : (buffer.take w).length = w := List.length_take_of_le h
  have hback := order.bytes_word (buffer.take w)
  rw [hlength] at hback
  rw [put?_of_le order h, hback, List.take_append_drop]

/-- **A word in place.** In a buffer with room for it, writing a word keeps the length and every
byte behind the word. In front stand the base-256 digits of the word in this order, which are the
bytes that an encoder adds for it, and reading gives the word back. Reading what is there gives what
a decoder reads there, and to write it again changes nothing. A buffer that is too short for the
word can be neither written nor read. -/
theorem word_in_place (order : ByteOrder) (w : Nat) (buffer : List UInt8) (v : Word w) :
    (w ≤ buffer.length →
      (∃ written, order.put? w buffer v = some written ∧
        written.length = buffer.length ∧
        (∀ i, w ≤ i → written[i]? = buffer[i]?) ∧
        order.get? w written = some v ∧
        (written.take w).map UInt8.toNat = order.digits w v.toNat ∧
        ∀ earlier, (Encoder.putWord ⟨order, earlier⟩ w v).bytes = earlier ++ written.take w) ∧
      ∃ old, order.get? w buffer = some old ∧
        order.put? w buffer old = some buffer ∧
        Decoder.word ⟨order, buffer⟩ w = .done old ⟨order, buffer.drop w⟩) ∧
      (buffer.length < w → order.put? w buffer v = none ∧ order.get? w buffer = none) := by
  refine ⟨?_, ?_⟩
  · intro h
    have hlength : (order.bytes w v.toNat).length = w := order.length_bytes w v.toNat
    have hfront : (order.bytes w v.toNat ++ buffer.drop w).take w = order.bytes w v.toNat :=
      List.take_left' hlength
    refine ⟨⟨_, order.put?_of_le h v, ?_, ?_, order.get?_bytes_append v _, ?_, ?_⟩,
      _, order.get?_of_le h, order.put?_word_take h, ?_⟩
    · rw [List.length_append, hlength, List.length_drop]
      omega
    · intro i hi
      rw [List.getElem?_append_right (by omega), hlength, List.getElem?_drop,
        Nat.add_sub_cancel' hi]
    · rw [hfront, map_toNat_bytes]
    · intro earlier
      rw [hfront]
      rfl
    · have hroom : w ≤ (Decoder.mk order buffer).remaining := h
      rw [Decoder.word_of_le hroom]
      rfl
  · intro h
    exact ⟨(order.put?_eq_none_iff w buffer v).2 h, (order.get?_eq_none_iff w buffer).2 h⟩

/-- A word of four bytes goes into six in either direction, and not into three. -/
theorem word_in_place_sixBytes :
    (∃ written, big.put? 4 [9, 9, 9, 9, 5, 6] 0x01020304 = some written ∧
        big.get? 4 written = some 0x01020304 ∧
        (written.take 4).map UInt8.toNat = [1, 2, 3, 4]) ∧
      (∃ written, little.put? 4 [9, 9, 9, 9, 5, 6] 0x01020304 = some written ∧
        (written.take 4).map UInt8.toNat = [4, 3, 2, 1]) ∧
      little.put? 4 [9, 9, 9] 0x01020304 = none := by
  obtain ⟨written, hput, -, -, hget, hdigits, -⟩ :=
    ((word_in_place big 4 [9, 9, 9, 9, 5, 6] 0x01020304).1 (by decide)).1
  obtain ⟨turned, hput', -, -, -, hdigits', -⟩ :=
    ((word_in_place little 4 [9, 9, 9, 9, 5, 6] 0x01020304).1 (by decide)).1
  refine ⟨⟨written, hput, hget, ?_⟩, ⟨turned, hput', ?_⟩,
    ((word_in_place little 4 [9, 9, 9] 0x01020304).2 (by decide)).1⟩
  · rw [hdigits]
    simp [digits, Nat.digitsAppend]
  · rw [hdigits']
    simp [digits, Nat.digitsAppend]

end ByteOrder

end ByteExact
