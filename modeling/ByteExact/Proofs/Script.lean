import ByteExact.Encoder
import ByteExact.Proofs.Cursor
import Mathlib.Data.List.Forall2
/-!
# Scripts

A script says what to write, step by step. Each step adds bytes of its own, as many as its width, so
that requests of the same widths, one for each step, cut what was written where the steps did: they
get every word and every run of bytes back, and zeros for a blank field.

Results:
* `run_eq`: a script adds the bytes of its steps in a row.
* `Step.ReadBack.serve_eq`: one step is read back.
* `replies_run_append`: a script is read back, and what lies behind it is left.
-/
namespace ByteExact

namespace Encoder

/-! ## Writing -/

/-- The bytes that a step writes. -/
def Step.added (order : ByteOrder) : Step → List UInt8
  | word w v => order.bytes w v.toNat
  | bytes bs => bs
  | zeros count => List.replicate count 0

@[simp] theorem Step.length_added (order : ByteOrder) (step : Step) :
    (step.added order).length = step.width := by
  cases step with
  | word w v => exact order.length_bytes w v.toNat
  | bytes bs => rfl
  | zeros count => exact List.length_replicate

theorem perform_eq (enc : Encoder) (step : Step) :
    enc.perform step = enc.putBytes (step.added enc.order) := by
  cases step <;> rfl

theorem length_perform (enc : Encoder) (step : Step) :
    (enc.perform step).length = enc.length + step.width := by
  rw [perform_eq, length, bytes_putBytes, List.length_append, Step.length_added, length]

theorem run_eq (enc : Encoder) (steps : List Step) :
    enc.run steps = enc.putBytes (steps.flatMap (Step.added enc.order)) := by
  induction steps generalizing enc with
  | nil => simp [run, putBytes]
  | cons step steps ih =>
    show (enc.perform step).run steps = _
    rw [ih, perform_eq]
    simp [putBytes]

theorem run_append_singleton (enc : Encoder) (steps : List Step) (step : Step) :
    enc.run (steps ++ [step]) = (enc.run steps).perform step := by
  rw [run, List.foldl_append]
  rfl

/-! ## Reading back -/

/-- A request that reads a step back, with the reply that it is to get. What a step wrote may also
be skipped, as blank fields are. -/
inductive Step.ReadBack : Step → Decoder.Request × Decoder.Reply → Prop
  | word (w : Nat) (v : Word w) : ReadBack (.word w v) (.word w, .word w v)
  | bytes (bs : List UInt8) : ReadBack (.bytes bs) (.take bs.length, .bytes bs)
  | zeros (count : Nat) : ReadBack (.zeros count) (.take count, .bytes (List.replicate count 0))
  | skipped (step : Step) : ReadBack step (.skip step.width, .nothing)

theorem Step.ReadBack.width_eq {step : Step} {call : Decoder.Request × Decoder.Reply}
    (h : step.ReadBack call) : call.1.width = step.width := by
  cases h <;> rfl

theorem Step.ReadBack.reply_eq {step : Step} {call : Decoder.Request × Decoder.Reply}
    (h : step.ReadBack call) (order : ByteOrder) :
    call.1.reply order (step.added order) = call.2 := by
  cases h with
  | word w v => exact congrArg (Decoder.Reply.word w) (order.word_bytes w v)
  | bytes bs => rfl
  | zeros count => rfl
  | skipped step => rfl

theorem Step.ReadBack.filled_eq {step : Step} {call : Decoder.Request × Decoder.Reply}
    (h : step.ReadBack call) (bs : List UInt8) : call.1.filled bs = [] := by
  cases h <;> rfl

theorem Step.ReadBack.serve_eq {step : Step} {call : Decoder.Request × Decoder.Reply}
    (h : step.ReadBack call) (order : ByteOrder) (rest : List UInt8) :
    (Decoder.mk order (step.added order ++ rest)).serve call.1 =
      .done call.2 ([], ⟨order, rest⟩) := by
  have hlength : (step.added order).length = call.1.width := by
    rw [Step.length_added, h.width_eq]
  have hle : call.1.width ≤ (Decoder.mk order (step.added order ++ rest)).remaining := by
    rw [Decoder.remaining, List.length_append, hlength]
    exact Nat.le_add_right ..
  rw [Decoder.serve_of_le hle, h.filled_eq, Decoder.advance]
  dsimp only
  rw [List.take_left' hlength, List.drop_left' hlength, h.reply_eq]

end Encoder

namespace Decoder

/-- What requests in a row come to, each on the decoder that the one before it leaves. -/
def replies (d : Decoder) : List Request → List (Except Error Reply)
  | [] => []
  | request :: requests => (d.serve request).result :: replies (d.serve request).state.2 requests

theorem replies_readBack (order : ByteOrder) {steps : List Encoder.Step}
    {calls : List (Request × Reply)} (h : List.Forall₂ Encoder.Step.ReadBack steps calls)
    (rest : List UInt8) :
    (Decoder.mk order (steps.flatMap (Encoder.Step.added order) ++ rest)).replies
          (calls.map Prod.fst) = calls.map (fun call => .ok call.2) ∧
      (Decoder.mk order (steps.flatMap (Encoder.Step.added order) ++ rest)).after
          (calls.map Prod.fst) = ⟨order, rest⟩ := by
  induction h with
  | nil => exact ⟨rfl, rfl⟩
  | @cons step call steps calls hcall _ ih =>
    obtain ⟨hreplies, hafter⟩ := ih
    have hserve := hcall.serve_eq order (steps.flatMap (Encoder.Step.added order) ++ rest)
    rw [List.flatMap_cons, List.append_assoc, List.map_cons, List.map_cons]
    refine ⟨?_, ?_⟩
    · rw [replies, hserve]
      exact congrArg _ hreplies
    · rw [after_cons, hserve]
      exact hafter

end Decoder

namespace Encoder

/-- **Scripts are read back.** Whatever has been written, the next step adds as many bytes as its
width. A script that was run on a new encoder is read back by one request for each of its steps, and
all of them succeed: with the words and bytes that were put, with zeros for the zeros, and with
whatever lies behind the script still unread. -/
theorem replies_run_append (order : ByteOrder) :
    (∀ (steps : List Step) (step : Step),
        ((empty order).run (steps ++ [step])).length =
          ((empty order).run steps).length + step.width) ∧
      ∀ (steps : List Step) (calls : List (Decoder.Request × Decoder.Reply)) (rest : List UInt8),
        List.Forall₂ Step.ReadBack steps calls →
          (Decoder.mk order (((empty order).run steps).bytes ++ rest)).replies
                (calls.map Prod.fst) = calls.map (fun call => .ok call.2) ∧
            (Decoder.mk order (((empty order).run steps).bytes ++ rest)).after
                (calls.map Prod.fst) = ⟨order, rest⟩ := by
  refine ⟨?_, ?_⟩
  · intro steps step
    rw [run_append_singleton, length_perform]
  · intro steps calls rest h
    have hbytes : ((empty order).run steps).bytes = steps.flatMap (Step.added order) := by
      rw [run_eq]
      rfl
    rw [hbytes]
    exact Decoder.replies_readBack order h rest

/-- A word, a blank field, a run of bytes and another blank field. The first blank field is skipped,
the second one is looked at. -/
theorem replies_run_append_sample :
    ((empty .little).run [.word 2 0x0102, .zeros 3, .bytes [9, 8], .zeros 1]).bytes =
        [2, 1, 0, 0, 0, 9, 8, 0] ∧
      (Decoder.mk .little [2, 1, 0, 0, 0, 9, 8, 0, 7]).replies
          [.word 2, .skip 3, .take 2, .take 1] =
        [.ok (.word 2 0x0102), .ok .nothing, .ok (.bytes [9, 8]), .ok (.bytes [0])] ∧
      (Decoder.mk .little [2, 1, 0, 0, 0, 9, 8, 0, 7]).after [.word 2, .skip 3, .take 2, .take 1] =
        ⟨.little, [7]⟩ := by
  have hread := (replies_run_append .little).2
    [.word 2 0x0102, .zeros 3, .bytes [9, 8], .zeros 1]
    [(.word 2, .word 2 0x0102), (.skip 3, .nothing), (.take 2, .bytes [9, 8]),
      (.take 1, .bytes [0])]
    [7] (.cons (.word 2 0x0102) (.cons (.skipped (.zeros 3)) (.cons (.bytes [9, 8])
      (.cons (.zeros 1) .nil))))
  exact ⟨rfl, hread⟩

end Encoder

end ByteExact
