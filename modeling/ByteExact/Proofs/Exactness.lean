import ByteExact.Proofs.Encoding
import ByteExact.Proofs.Outcome
/-!
# Exactness of sizes

The size of a value is worked out before anything moves, by a walk of its own over layouts and
fields. It is the number of bytes that the encoder then holds and that the decoder then takes, so
neither of them has to look at it again.

Results:
* `length_encode_of_size`, `remaining_decode_of_size`: the encoder and the decoder agree with
  sizing.
* `size_exact`: sizes are exact on both ways, and the encoder refuses what is absent only.
-/
namespace ByteExact.Schema

theorem length_encode_of_size {s : Schema} {v : s.Value} {n : Nat} (order : ByteOrder)
    {enc : Encoder} (hn : s.size v = .ok n) (h : s.encode v (.empty order) = .done () enc) :
    enc.length = n ∧ s.toBytes order v = .ok enc.bytes := by
  have hr := result_encode s (admissible_of_size hn) v (.empty order)
  have hw := writes_encode s v (.empty order)
  rw [h] at hr hw
  have ha : s.hasAbsent v = false := by
    rw [Bool.eq_false_iff]
    intro ha
    rw [ha] at hr
    cases hr
  have henc : enc = (Encoder.empty order).putBytes ((s.pieces v).flatMap (Piece.bytes order)) :=
    hw.state_eq
  have hbytes : enc.bytes = (s.pieces v).flatMap (Piece.bytes order) := by
    rw [henc]
    rfl
  refine ⟨?_, ?_⟩
  · rw [Encoder.length, hbytes, Piece.length_flatMap_bytes, size_eq_total s v n hn ha]
  · rw [toBytes_of_size order hn, ha, if_neg Bool.false_ne_true, hbytes]

theorem remaining_decode_of_size {s : Schema} {t : s.Value} {n : Nat} {d : Decoder}
    (hn : s.size t = .ok n) (hd : d.remaining = n) (h : (s.decode t d).result = .ok ()) :
    (s.decode t d).state.2.remaining = 0 ∧ s.size (s.decode t d).state.1 = .ok n := by
  have ha := hasAbsent_of_decode s t d h
  refine ⟨?_, ?_⟩
  · rw [remaining_of_decode h, hd, size_eq_total s t n hn ha, Nat.sub_self]
  · rw [← size_eq_of_sameShape s t _ (sameShape_decode s t d), hn]

theorem hasAbsent_of_toBytes_error {s : Schema} {v : s.Value} {n : Nat} {order : ByteOrder}
    {e : Error} (hn : s.size v = .ok n) (h : s.toBytes order v = .error e) :
    e = .noValue ∧ s.hasAbsent v = true := by
  rw [toBytes_of_size order hn] at h
  cases ha : s.hasAbsent v with
  | false =>
    rw [ha] at h
    cases h
  | true =>
    rw [ha] at h
    cases h
    exact ⟨rfl, rfl⟩

/-- **Sizes are exact.** A value with a size, whatever its schema, is encoded to as many bytes. A
target with a size takes all of as many bytes, has the same size afterwards, and is given back with
it. An encoder that refuses a value with a size has found something absent in it. -/
theorem size_exact (order : ByteOrder) (s : Schema) (v : s.Value) (n : Nat)
    (hn : s.size v = .ok n) :
    (∀ enc, s.encode v (.empty order) = .done () enc →
        enc.length = n ∧ s.toBytes order v = .ok enc.bytes) ∧
      (∀ data t' d', s.isWritable = true → n ≤ data.length →
        s.decode v ⟨order, data.take n⟩ = .done () (t', d') →
          d'.remaining = 0 ∧ s.fromBytes order data v = .done n t' ∧ s.size t' = .ok n) ∧
      ∀ e, s.toBytes order v = .error e → e = .noValue ∧ s.hasAbsent v = true := by
  refine ⟨?_, ?_, ?_⟩
  · intro enc henc
    exact length_encode_of_size order hn henc
  · intro data t' d' hw hle hdec
    have hr : (s.decode v ⟨order, data.take n⟩).result = .ok () := by rw [hdec]; rfl
    have hlength : (Decoder.mk order (data.take n)).remaining = n := List.length_take_of_le hle
    obtain ⟨hrem, hsize⟩ := remaining_decode_of_size hn hlength hr
    rw [hdec] at hrem hsize
    refine ⟨hrem, ?_, hsize⟩
    exact fromBytes_eq_done_iff.2 ⟨targetSize_eq_ok_iff.2 ⟨hw, hn⟩, hle, hr, by rw [hdec]; rfl⟩
  · intro e he
    exact hasAbsent_of_toBytes_error hn he

/-- A shipment with a weight fills and takes 11 bytes; one without is refused by the encoder. -/
theorem size_exact_shipment :
    (∃ enc, shipment.encode (shipmentOf 0xFFFE 7 (some 5)) (.empty .little) = .done () enc ∧
        enc.length = 11) ∧
      (∃ t' d', shipment.decode (shipmentOf 0 0 (some 0)) ⟨.big, List.replicate 11 1⟩ =
          .done () (t', d') ∧ d'.remaining = 0 ∧ shipment.size t' = .ok 11) ∧
      ∃ e, shipment.toBytes .big (shipmentOf 0xFFFE 7 none) = .error e ∧ e = .noValue := by
  have hencoded := (size_exact .little shipment (shipmentOf 0xFFFE 7 (some 5)) 11 rfl).1 _ rfl
  have hfilled := (size_exact .big shipment (shipmentOf 0 0 (some 0)) 11 rfl).2.1
    (List.replicate 11 1) _ _ rfl (by decide) rfl
  have hrefused := (size_exact .big shipment (shipmentOf 0xFFFE 7 none) 11 rfl).2.2 _ rfl
  exact ⟨⟨_, rfl, hencoded.1⟩, ⟨_, _, rfl, hfilled.1, hfilled.2.2⟩, ⟨_, rfl, hrefused.1⟩⟩

end ByteExact.Schema
