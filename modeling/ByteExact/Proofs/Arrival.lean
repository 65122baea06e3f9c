import ByteExact.Proofs.Encoding
import ByteExact.Proofs.Refusal
/-!
# Arrival

Reading a target from a source is filling it from the bytes that it needs, in whatever pieces these
arrive. A target that cannot be filled is refused before the source is asked. A source that ends or
fails too early leaves the target as it was.

Results:
* `read_outcome`: reading from any source, against decoding from bytes.
-/
namespace ByteExact

namespace Attempt

variable {σ α : Type}

theorem result_andThen_done (a : Attempt σ α) :
    (a.andThen fun _ s => done () s).result = a.result.map fun _ => () := by
  obtain ⟨result, s⟩ := a
  cases result <;> rfl

theorem state_andThen_done (a : Attempt σ α) :
    (a.andThen fun _ s => done () s).state = a.state := by
  obtain ⟨result, s⟩ := a
  cases result <;> rfl

end Attempt

namespace Schema

/-- **Reading is decoding what arrives.** A target that is not writable, or has no size, is refused
with the error that decoding from any bytes gives, and the source is not asked. From a source with
enough bytes to come, reading takes as many as the size, and the answer and the target are those of
decoding from them, however they are delivered. A source with fewer ends or fails on the way; that
is the answer then, and the target is unchanged. -/
theorem read_outcome {σ : Type} [Source σ] (order : ByteOrder) (s : Schema) (source : σ)
    (t : s.Value) :
    (s.isWritable = false → s.RefusedAtOnce order t .notWritable) ∧
      (∀ e, s.isWritable = true → s.size t = .error e → s.RefusedAtOnce order t e) ∧
      (∀ n, s.isWritable = true → s.size t = .ok n → n ≤ (Source.pending source).length →
        ∃ source', Source.pending source' = (Source.pending source).drop n ∧
          (s.read order source t).result =
            (s.fromBytes order ((Source.pending source).take n) t).result.map (fun _ => ()) ∧
          (s.read order source t).state =
            ((s.fromBytes order ((Source.pending source).take n) t).state, source')) ∧
      ∀ n, s.isWritable = true → s.size t = .ok n → (Source.pending source).length < n →
        ∃ fault source', s.read order source t = .fail (.io fault) (t, source') ∧
          (Source.ending source = none → fault.kind = .unexpectedEnd) ∧
          ∀ own, Source.ending source = some own → fault = own := by
  refine ⟨?_, ?_, ?_, ?_⟩
  · intro hw
    refine refusedAtOnce_of_targetSize order ?_
    rw [targetSize, if_neg (by rw [hw]; exact Bool.false_ne_true)]
  · intro e hw hsize
    refine refusedAtOnce_of_targetSize order ?_
    rw [targetSize, if_pos hw, hsize]
  · intro n hw hsize hn
    obtain ⟨source', hpending, hread⟩ :=
      read_of_le order source (targetSize_eq_ok_iff.2 ⟨hw, hsize⟩) hn
    refine ⟨source', hpending, ?_, ?_⟩
    · rw [hread, Attempt.result_andThen_done, Attempt.result_mapState]
    · rw [hread, Attempt.state_andThen_done, Attempt.state_mapState]
  · intro n hw hsize hn
    obtain ⟨source', hread⟩ := read_of_lt order source (targetSize_eq_ok_iff.2 ⟨hw, hsize⟩) hn
    refine ⟨_, source', hread, ?_, ?_⟩
    · intro hend
      rw [hend]
      rfl
    · intro own hend
      rw [hend]
      rfl

/-- A source that delivers three bytes at a time after two interruptions, and fails at the end. -/
def slowSource (data : List UInt8) : ThrottledSource :=
  { data := data, chunk := some 3, fails := true, interruptions := 2 }

/-- A shared reference and a record without its weight are refused at once. A record that holds a
shared reference fails midway, when its seven bytes are taken. A shipment gets its eleven bytes in
four pieces, or else the failure of the source. -/
theorem read_slowSource :
    (ref .shared (.scalar .uint32)).RefusedAtOnce .big (5 : Word 4) .notWritable ∧
      sample.RefusedAtOnce .big (sampleOf 1 none 2) .noValue ∧
      (∃ source', Source.pending source' = [17] ∧
        (borrowing.read .big (slowSource [10, 11, 12, 13, 14, 15, 16, 17])
          (borrowingOf 1 2 3)).result = .error .notWritable ∧
        (borrowing.read .big (slowSource [10, 11, 12, 13, 14, 15, 16, 17])
          (borrowingOf 1 2 3)).state = (borrowingOf 0x0A0B 2 3, source')) ∧
      (∃ source', Source.pending source' = [9, 9] ∧
        (shipment.read .big (slowSource [0xFF, 0xFE, 8, 8, 7, 8, 8, 1, 2, 3, 4, 9, 9])
          (shipmentOf 0 0 (some 0))).result = .ok () ∧
        (shipment.read .big (slowSource [0xFF, 0xFE, 8, 8, 7, 8, 8, 1, 2, 3, 4, 9, 9])
          (shipmentOf 0 0 (some 0))).state = (shipmentOf 0xFFFE 7 (some 0x01020304), source')) ∧
      ∃ source', shipment.read .big (slowSource [0xFF, 0xFE, 8, 8]) (shipmentOf 0 0 (some 0)) =
        .fail (.io ThrottledSource.broken) (shipmentOf 0 0 (some 0), source') := by
  refine ⟨?_, ?_, ?_, ?_, ?_⟩
  · exact (read_outcome .big (.ref .shared (.scalar .uint32)) (slowSource []) (5 : Word 4)).1 rfl
  · exact (read_outcome .big sample (slowSource []) (sampleOf 1 none 2)).2.1 _ rfl rfl
  · exact (read_outcome .big borrowing (slowSource [10, 11, 12, 13, 14, 15, 16, 17])
      (borrowingOf 1 2 3)).2.2.1 7 rfl rfl (by decide)
  · exact (read_outcome .big shipment (slowSource [0xFF, 0xFE, 8, 8, 7, 8, 8, 1, 2, 3, 4, 9, 9])
      (shipmentOf 0 0 (some 0))).2.2.1 11 rfl rfl (by decide)
  · obtain ⟨fault, source', hread, -, hown⟩ := (read_outcome .big shipment
      (slowSource [0xFF, 0xFE, 8, 8]) (shipmentOf 0 0 (some 0))).2.2.2 11 rfl rfl (by decide)
    rw [hown _ rfl] at hread
    exact ⟨source', hread⟩

end Schema

end ByteExact
