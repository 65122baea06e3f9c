import ByteExact.Proofs.Encoding
import ByteExact.Proofs.Filling
/-!
# Bulk moves

A run of numbers is written and read in bulk, everything else element by element. The bulk forms are
short cuts: they come to what the loop over the elements would, except that a bulk read that is too
long for the bytes at hand fills nothing, where the loop fills what it can. Numbers of one byte are
moved as the bytes they are.

Results:
* `decodeEach_of_le`, `decodeEach_of_lt`: what the loop makes of a run of numbers.
* `putWords_one`, `fillWords_one`: bulk moves of bytes are copies.
* `bulk_eq_each`: the bulk forms against the loops.
-/
namespace ByteExact

/-- The byte that a word of one byte is. -/
def Word.byte {w : Nat} (v : Word w) : UInt8 := UInt8.ofNat v.toNat

/-- A byte as a word. -/
def Word.ofByte (w : Nat) (b : UInt8) : Word w := BitVec.ofNat (8 * w) b.toNat

theorem Word.ofByte_byte (v : Word 1) : Word.ofByte 1 v.byte = v := by
  apply BitVec.eq_of_toNat_eq
  have hv : v.toNat < 256 := v.isLt
  rw [Word.ofByte, Word.byte, BitVec.toNat_ofNat, UInt8.toNat_ofNat']
  omega

/-! ## Copies -/

theorem ByteOrder.bytes_one (order : ByteOrder) (n : Nat) : order.bytes 1 n = [UInt8.ofNat n] := by
  cases order <;> rfl

theorem ByteOrder.word_one (order : ByteOrder) (b : UInt8) :
    order.word 1 [b] = Word.ofByte 1 b := by
  cases order <;> rfl

theorem Encoder.putWords_one {w : Nat} (hw : w = 1) (enc : Encoder) (vs : List (Word w)) :
    enc.putWords w vs = enc.putBytes (vs.map Word.byte) := by
  subst hw
  have hbytes : (fun v : Word 1 => enc.order.bytes 1 v.toNat) = fun v => [v.byte] := by
    funext v
    exact enc.order.bytes_one v.toNat
  rw [Encoder.putWords_eq_putBytes, hbytes, List.map_eq_flatMap]

namespace Decoder

theorem refill_one (order : ByteOrder) (slots : List (Word 1)) (bs : List UInt8)
    (h : slots.length ≤ bs.length) :
    refill order 1 slots bs = (bs.take slots.length).map (Word.ofByte 1) := by
  induction slots generalizing bs with
  | nil => rfl
  | cons slot slots ih =>
    cases bs with
    | nil => simp at h
    | cons b bs =>
      have hrest : slots.length ≤ bs.length := by simpa using h
      have hone : 1 ≤ (b :: bs).length := by simp
      rw [refill_cons_of_le order hone, List.take_succ_cons, List.take_zero, List.drop_succ_cons,
        List.drop_zero, order.word_one, ih bs hrest, List.length_cons, List.take_succ_cons,
        List.map_cons]

theorem fillWords_one {w : Nat} (hw : w = 1) (d : Decoder) (slots : List (Word w)) :
    d.fillWords w slots =
      (d.copyOver (slots.map Word.byte)).mapState fun (bs, d) => (bs.map (Word.ofByte w), d) := by
  subst hw
  have hlength : (slots.map Word.byte).length = slots.length := List.length_map ..
  by_cases h : slots.length ≤ d.remaining
  · have hwords : slots.length * 1 ≤ d.remaining := by omega
    have hcopy : (slots.map Word.byte).length ≤ d.remaining := by omega
    rw [fillWords_of_le hwords, copyOver_of_le hcopy, hlength, refill_one d.order slots d.unread h,
      Nat.mul_one]
    rfl
  · have hwords : d.remaining < slots.length * 1 := by omega
    have hcopy : d.remaining < (slots.map Word.byte).length := by omega
    have hback : (slots.map Word.byte).map (Word.ofByte 1) = slots := by
      rw [List.map_map]
      exact List.map_id'' Word.ofByte_byte slots
    rw [fillWords_of_lt hwords, copyOver_of_lt hcopy, hlength, Nat.mul_one]
    show _ = Attempt.mk _ ((slots.map Word.byte).map (Word.ofByte 1), d)
    rw [hback]
    rfl

end Decoder

namespace Schema

/-! ## The loop over words -/

variable {w : Nat} {xs : List (Word w)} {d : Decoder}

theorem decodeEach_of_le (h : xs.length * w ≤ d.remaining) :
    decodeEach (fun x d => d.fillWord w x) xs d =
      .done () (Decoder.refill d.order w xs d.unread, d.advance (xs.length * w)) := by
  induction xs generalizing d with
  | nil =>
    rw [List.length_nil, Nat.zero_mul]
    rfl
  | cons x xs ih =>
    rw [List.length_cons, Nat.succ_mul] at h
    have hw : w ≤ d.remaining := by omega
    have hrest : xs.length * w ≤ (d.advance w).remaining := by
      rw [Decoder.remaining_advance]
      omega
    rw [decodeEach, Decoder.fillWord_of_le hw]
    show (decodeEach _ xs (d.advance w)).mapState _ = _
    rw [ih hrest, Decoder.advance_advance, List.length_cons, Nat.succ_mul, Nat.add_comm,
      Decoder.refill_cons_of_le d.order hw]
    rfl

/-- The loop fills as many words as there are bytes for, and fails for want of the rest of the next
one. -/
theorem decodeEach_of_lt (h : d.remaining < xs.length * w) :
    decodeEach (fun x d => d.fillWord w x) xs d =
      .fail (.shortRead w (d.remaining % w))
        (Decoder.refill d.order w (xs.take (d.remaining / w)) d.unread ++
            xs.drop (d.remaining / w),
          d.advance (d.remaining / w * w)) := by
  induction xs generalizing d with
  | nil =>
    rw [List.length_nil, Nat.zero_mul] at h
    exact (Nat.not_lt_zero _ h).elim
  | cons x xs ih =>
    have hpos : 0 < w := Nat.pos_of_mul_pos_left (Nat.zero_lt_of_lt h)
    rw [List.length_cons, Nat.succ_mul] at h
    by_cases hw : w ≤ d.remaining
    · have hrem := d.remaining_advance w
      have hdiv : d.remaining / w = (d.advance w).remaining / w + 1 := by
        rw [hrem, Nat.div_eq_sub_div hpos hw]
      have hmod : d.remaining % w = (d.advance w).remaining % w := by
        rw [hrem, Nat.mod_eq_sub_mod hw]
      have hrest : (d.advance w).remaining < xs.length * w := by
        rw [hrem]
        omega
      rw [decodeEach, Decoder.fillWord_of_le hw]
      show (decodeEach _ xs (d.advance w)).mapState _ = _
      rw [ih hrest, hdiv, hmod, Decoder.advance_advance, Nat.succ_mul, Nat.add_comm w,
        List.take_succ_cons, List.drop_succ_cons, Decoder.refill_cons_of_le d.order hw]
      rfl
    · have hshort : d.remaining < w := by omega
      rw [decodeEach, Decoder.fillWord_of_lt hshort, Nat.div_eq_of_lt hshort,
        Nat.mod_eq_of_lt hshort, Nat.zero_mul]
      rfl

/-! ## Bulk and loop -/

/-- **Short cuts.** For numbers of every kind, writing a run in bulk is writing it one by one,
whatever the encoder holds. Reading a run in bulk succeeds just if reading it one by one does, which
takes bytes for all of it, and then they come to the same. With fewer bytes both are short reads;
the bulk read leaves the run and the decoder as they were. In bulk, numbers of one byte are
copied. -/
theorem bulk_eq_each (kind : Scalar) (xs : List (Word kind.width)) (enc : Encoder) (d : Decoder) :
    encodeRun (.scalar kind) (encode (.scalar kind)) xs enc =
        encodeEach (encode (.scalar kind)) xs enc ∧
      (xs.length * kind.width ≤ d.remaining →
        (decodeEach (decode (.scalar kind)) xs d).result = .ok () ∧
          decodeRun (.scalar kind) (decode (.scalar kind)) xs d =
            decodeEach (decode (.scalar kind)) xs d) ∧
      (d.remaining < xs.length * kind.width →
        (decodeEach (decode (.scalar kind)) xs d).result =
            .error (.shortRead kind.width (d.remaining % kind.width)) ∧
          decodeRun (.scalar kind) (decode (.scalar kind)) xs d =
            .fail (.shortRead (xs.length * kind.width) d.remaining) (xs, d)) ∧
      (kind.width = 1 →
        encodeRun (.scalar kind) (encode (.scalar kind)) xs enc =
            .done () (enc.putBytes (xs.map Word.byte)) ∧
          decodeRun (.scalar kind) (decode (.scalar kind)) xs d =
            (d.copyOver (xs.map Word.byte)).mapState
              fun (bs, d) => (bs.map (Word.ofByte kind.width), d)) := by
  refine ⟨encodeRun_eq_encodeEach (.scalar kind) xs enc, ?_, ?_, ?_⟩
  · intro h
    have heach := decodeEach_of_le h
    exact ⟨congrArg Attempt.result heach, (Decoder.fillWords_of_le h).trans heach.symm⟩
  · intro h
    have heach := decodeEach_of_lt h
    exact ⟨congrArg Attempt.result heach, Decoder.fillWords_of_lt h⟩
  · intro hw
    exact ⟨congrArg (Attempt.done ()) (enc.putWords_one hw xs), d.fillWords_one hw xs⟩

/-- Two numbers of two bytes each. -/
def pair : List (Word Scalar.uint16.width) := [0x0A0B, 0x0C0D]

/-- A pair is filled from the first four of five bytes. From three, the loop fills the first number,
and the bulk read none. A number of one byte is copied. -/
theorem bulk_eq_each_pair :
    decodeRun (.scalar .uint16) (decode (.scalar .uint16)) pair ⟨.little, [1, 2, 3, 4, 5]⟩ =
        .done () (([0x0201, 0x0403] : List (Word 2)), ⟨.little, [5]⟩) ∧
      decodeEach (decode (.scalar .uint16)) pair ⟨.little, [1, 2, 3]⟩ =
        .fail (.shortRead 2 1) (([0x0201, 0x0C0D] : List (Word 2)), ⟨.little, [3]⟩) ∧
      decodeRun (.scalar .uint16) (decode (.scalar .uint16)) pair ⟨.little, [1, 2, 3]⟩ =
        .fail (.shortRead 4 3) (pair, ⟨.little, [1, 2, 3]⟩) ∧
      encodeRun (.scalar .int8) (encode (.scalar .int8)) ([0xFE] : List (Word 1)) ⟨.big, [7]⟩ =
        .done () ⟨.big, [7, 0xFE]⟩ := by
  have henough := (bulk_eq_each .uint16 pair (.empty .little) ⟨.little, [1, 2, 3, 4, 5]⟩).2.1
    (by decide)
  have hshort := (bulk_eq_each .uint16 pair (.empty .little) ⟨.little, [1, 2, 3]⟩).2.2.1 (by decide)
  have hbyte := (bulk_eq_each .int8 ([0xFE] : List (Word 1)) ⟨.big, [7]⟩ ⟨.big, []⟩).2.2.2 rfl
  exact ⟨henough.2.trans rfl, rfl, hshort.2, hbyte.1⟩

end Schema

end ByteExact
