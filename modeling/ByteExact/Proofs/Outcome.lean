import ByteExact.Proofs.Obstacle
import ByteExact.Transfer
/-!
# Outcomes of decoding

Decoding from bytes sizes its target, checks that there are as many bytes, and fills the target
from them. What the check admits is enough for every step of the walk: the size of a target is the
total width of its pieces, whether it came from the layout of a run's elements or from a sum over
fields.

Results:
* `fromBytes_eq_done_iff`, `filled_of_fromBytes`: what a success consists of.
* `fromBytes_of_size`: a sized target is filled if there are bytes enough for it.
* `fromBytes_outcome`: the three outcomes, and which of them it is.
-/
namespace ByteExact.Schema

/-- `t'` is `t` with every number read from its own bytes of `bs`. -/
structure Filled (s : Schema) (order : ByteOrder) (bs : List UInt8) (t t' : s.Value) : Prop where
  sameShape : s.SameShape t t'
  pieces_eq : s.pieces t' = Piece.refill order (s.pieces t) bs

theorem filled_of_decode {s : Schema} {t : s.Value} {d : Decoder}
    (h : (s.decode t d).result = .ok ()) : s.Filled d.order d.unread t (s.decode t d).state.1 :=
  ⟨sameShape_decode s t d, (state_of_decode h).2⟩

theorem targetSize_eq_ok_iff {s : Schema} {t : s.Value} {n : Nat} :
    s.targetSize t = .ok n ↔ s.isWritable = true ∧ s.size t = .ok n := by
  rw [targetSize]
  cases s.isWritable <;> simp

/-! ## Success -/

theorem fromBytes_eq_done_iff {s : Schema} {order : ByteOrder} {data : List UInt8}
    {t t' : s.Value} {n : Nat} :
    s.fromBytes order data t = .done n t' ↔
      s.targetSize t = .ok n ∧ n ≤ data.length ∧
        (s.decode t ⟨order, data.take n⟩).result = .ok () ∧
        (s.decode t ⟨order, data.take n⟩).state.1 = t' := by
  constructor
  · intro h
    rw [fromBytes] at h
    cases hsize : s.targetSize t with
    | error e =>
      rw [hsize] at h
      cases h
    | ok size =>
      rw [hsize, Attempt.guarded_ok] at h
      split at h
      · cases h
      · rename_i hle
        generalize hd : s.decode t ⟨order, data.take size⟩ = filled at h
        obtain ⟨result, state⟩ := filled
        cases result with
        | error e => cases h
        | ok u =>
          cases h
          rw [hd]
          exact ⟨rfl, Nat.le_of_not_lt hle, rfl, rfl⟩
  · rintro ⟨hsize, hle, hr, rfl⟩
    rw [fromBytes, hsize, Attempt.guarded_ok, if_neg (Nat.not_lt.2 hle), Attempt.andThen, hr]
    rfl

theorem filled_of_fromBytes {s : Schema} {order : ByteOrder} {data : List UInt8} {t t' : s.Value}
    {n : Nat} (h : s.fromBytes order data t = .done n t') :
    s.Filled order (data.take n) t t' := by
  obtain ⟨-, -, hr, rfl⟩ := fromBytes_eq_done_iff.1 h
  exact filled_of_decode hr

/-- Once a target has a size and there are as many bytes, only an obstacle can stop the walk. -/
theorem result_decode_of_size {s : Schema} {t : s.Value} {n : Nat} (order : ByteOrder)
    {data : List UInt8} (hn : s.size t = .ok n) (hd : n ≤ data.length) :
    (s.decode t ⟨order, data.take n⟩).result = verdict (s.obstacle t) := by
  have htotal := total_le_of_size hn
  have henough : Piece.total (s.pieces t) ≤ (data.take n).length := by
    rw [List.length_take]
    omega
  exact result_decode s (admissible_of_size hn) t ⟨order, data.take n⟩ henough

theorem result_fromBytes_of_size {s : Schema} {t : s.Value} {n : Nat} (order : ByteOrder)
    {data : List UInt8} (h : s.targetSize t = .ok n) (hd : n ≤ data.length) :
    (s.fromBytes order data t).result = (verdict (s.obstacle t)).map fun _ => n := by
  have hr := result_decode_of_size order (targetSize_eq_ok_iff.1 h).2 hd
  rw [fromBytes, h, Attempt.guarded_ok, if_neg (Nat.not_lt.2 hd), Attempt.result_mapState,
    Attempt.andThen, hr]
  cases s.obstacle t <;> rfl

theorem fromBytes_of_lt {s : Schema} {t : s.Value} {n : Nat} (order : ByteOrder)
    {data : List UInt8} (h : s.targetSize t = .ok n) (hd : data.length < n) :
    s.fromBytes order data t = .fail (.shortRead n data.length) t := by
  rw [fromBytes, h, Attempt.guarded_ok, if_pos hd]

theorem fromBytes_of_size {s : Schema} {t : s.Value} {n : Nat} (order : ByteOrder)
    {data : List UInt8} (hw : s.isWritable = true) (ha : s.hasAbsent t = false)
    (hs : s.holdsShared t = false) (hn : s.size t = .ok n) (hd : n ≤ data.length) :
    ∃ t', s.fromBytes order data t = .done n t' ∧ s.Filled order (data.take n) t t' := by
  have hr := result_decode_of_size order hn hd
  rw [(obstacle_eq_none_iff s t).2 ⟨ha, hs⟩] at hr
  exact ⟨_, fromBytes_eq_done_iff.2 ⟨targetSize_eq_ok_iff.2 ⟨hw, hn⟩, hd, hr, rfl⟩,
    filled_of_decode hr⟩

/-! ## All outcomes -/

/-- **The outcomes of decoding.** A target with nothing absent or shared in it is refused for its
size with the error of the size, refused for want of bytes with both counts in the error, or filled.
A refusal leaves it as it was. -/
theorem fromBytes_outcome (order : ByteOrder) (s : Schema) (data : List UInt8) (t : s.Value)
    (hw : s.isWritable = true) (ha : s.hasAbsent t = false) (hs : s.holdsShared t = false) :
    match s.size t with
    | .error e => s.fromBytes order data t = .fail e t
    | .ok n =>
      if data.length < n then
        ∃ e, s.fromBytes order data t = .fail e t ∧ e = .shortRead n data.length ∧
          e.isShortRead = true ∧
          e.message = "I/O error: " ++ ("short read: need " ++ toString n ++ " bytes, " ++
            toString data.length ++ " available")
      else
        ∃ t', s.fromBytes order data t = .done n t' ∧ s.Filled order (data.take n) t t' := by
  have htarget : s.targetSize t = s.size t := if_pos hw
  cases hn : s.size t with
  | error e =>
    show s.fromBytes order data t = .fail e t
    rw [fromBytes, htarget, hn, Attempt.guarded_error]
  | ok n =>
    dsimp only
    split
    · rename_i hlt
      refine ⟨.shortRead n data.length, ?_, rfl, rfl, rfl⟩
      rw [fromBytes, htarget, hn, Attempt.guarded_ok, if_pos hlt]
    · rename_i hle
      exact fromBytes_of_size order hw ha hs hn (Nat.le_of_not_lt hle)

/-- A sequence of boxed numbers. -/
def boxes : Schema := .run .growable (.ref .owned (.scalar .uint16))

def boxesOf (numbers : List (Word 2)) : boxes.Value := ⟨numbers, trivial⟩

/-- Two boxes are filled from the first four of five bytes, and not from three. -/
theorem fromBytes_boxes :
    (∃ t', boxes.fromBytes .big [1, 2, 3, 4, 5] (boxesOf [0, 0]) = .done 4 t' ∧
        boxes.Filled .big [1, 2, 3, 4] (boxesOf [0, 0]) t') ∧
      ∃ e, boxes.fromBytes .big [1, 2, 3] (boxesOf [0, 0]) = .fail e (boxesOf [0, 0]) ∧
        e = .shortRead 4 3 :=
  ⟨fromBytes_outcome .big boxes [1, 2, 3, 4, 5] (boxesOf [0, 0]) rfl rfl rfl,
    (fromBytes_outcome .big boxes [1, 2, 3] (boxesOf [0, 0]) rfl rfl rfl).imp fun _ h =>
      ⟨h.1, h.2.1⟩⟩

end ByteExact.Schema
