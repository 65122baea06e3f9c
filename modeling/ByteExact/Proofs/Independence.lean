import ByteExact.Proofs.Encoding
import ByteExact.Proofs.Outcome
/-!
# Independence

Two runs of decoding, into targets of one shape and from bytes enough, come to the same answer
whatever the targets and the bytes hold. If they succeed, the targets end equal as soon as the bytes
agree in the places of numbers: what the targets held before, the bytes of blank fields and the
bytes behind the size leave no trace.

Results:
* `refill_eq_of_agree`: pieces of the same kinds are refilled alike from bytes that agree outside of
  padding.
* `fromBytes_rel`: two runs of decoding from the same bytes, into targets of any two schemas.
* `fromBytes_independent`: two runs into targets of one shape.
-/
namespace ByteExact

namespace Piece

/-- Bytes that agree in all places of the pieces except those of padding. -/
def Agree (ps : List Piece) (as bs : List UInt8) : Prop :=
  ∀ i : Nat, (mask ps)[i]? = some false → as[i]? = bs[i]?

instance (ps : List Piece) (as bs : List UInt8) : Decidable (Agree ps as bs) :=
  decidable_of_iff
    (∀ i < (mask ps).length, (mask ps)[i]? = some false → as[i]? = bs[i]?)
    ⟨fun h i hi => h i (List.getElem?_eq_some_iff.1 hi).1 hi, fun h i _ hi => h i hi⟩

theorem mask_cons (p : Piece) (ps : List Piece) :
    mask (p :: ps) = List.replicate p.width p.isPadding ++ mask ps :=
  List.flatMap_cons

theorem Agree.take_eq {p : Piece} {ps : List Piece} {as bs : List UInt8}
    (h : Agree (p :: ps) as bs) (hp : p.isPadding = false) :
    as.take p.width = bs.take p.width := by
  apply List.ext_getElem?
  intro i
  rw [List.getElem?_take, List.getElem?_take]
  split
  · rename_i hi
    refine h i ?_
    rw [mask_cons, List.getElem?_append_left (by rwa [List.length_replicate]),
      List.getElem?_replicate, if_pos hi, hp]
  · rfl

theorem Agree.drop {p : Piece} {ps : List Piece} {as bs : List UInt8} (h : Agree (p :: ps) as bs) :
    Agree ps (as.drop p.width) (bs.drop p.width) := by
  intro i hi
  rw [List.getElem?_drop, List.getElem?_drop]
  refine h (p.width + i) ?_
  rw [mask_cons, List.getElem?_append_right (by rw [List.length_replicate]; omega),
    List.length_replicate, Nat.add_sub_cancel_left, hi]

theorem Alike.refilled_eq {p q : Piece} (order : ByteOrder) (h : Alike p q) {as bs : List UInt8}
    (hagree : p.isPadding = false → as = bs) : p.refilled order as = q.refilled order bs := by
  cases h with
  | number kind a b => rw [refilled, refilled, hagree rfl]
  | padding layout => rfl

theorem refill_eq_of_agree (order : ByteOrder) {ps qs : List Piece} (h : List.Forall₂ Alike ps qs)
    {as bs : List UInt8} (hagree : Agree ps as bs) : refill order ps as = refill order qs bs := by
  induction h generalizing as bs with
  | nil => rfl
  | cons hpq _ ih =>
    rw [refill, refill, ← hpq.width_eq, hpq.refilled_eq order hagree.take_eq, ih hagree.drop]

end Piece

namespace Schema

theorem targetSize_eq_of_sameShape {s : Schema} {a b : s.Value} (h : s.SameShape a b) :
    s.targetSize a = s.targetSize b := by
  rw [targetSize, targetSize, size_eq_of_sameShape s a b h]

theorem fromBytes_eq_done {s : Schema} {order : ByteOrder} {data : List UInt8} {t : s.Value}
    {n : Nat} (h : (s.fromBytes order data t).result = .ok n) :
    s.fromBytes order data t = .done n (s.fromBytes order data t).state := by
  rw [Attempt.done, ← h]

theorem eq_of_filled {s : Schema} (hs : s.Admissible) {order : ByteOrder} {as bs : List UInt8}
    {t₁ t₂ t₁' t₂' : s.Value} (ht : s.SameShape t₁ t₂) (h₁ : s.Filled order as t₁ t₁')
    (h₂ : s.Filled order bs t₂ t₂')
    (hagree : Piece.Agree (s.pieces t₁) as bs) : t₁' = t₂' := by
  have hshape : s.SameShape t₁' t₂' :=
    sameShape_trans s t₁' t₁ t₂' (sameShape_symm s t₁ t₁' h₁.sameShape)
      (sameShape_trans s t₁ t₂ t₂' ht h₂.sameShape)
  refine eq_of_pieces_eq s hs t₁' t₂' hshape ?_
  rw [h₁.pieces_eq, h₂.pieces_eq,
    Piece.refill_eq_of_agree order (alike_pieces s t₁ t₂ ht) hagree]

/-- Two targets of one size and without obstacles are both refused for want of bytes, or both filled
from the same ones. -/
theorem fromBytes_rel {s s' : Schema} {v : s.Value} {v' : s'.Value} {n : Nat}
    {R : s.Value → s'.Value → Prop} (order : ByteOrder) (data : List UInt8)
    (hn : s.targetSize v = .ok n) (hn' : s'.targetSize v' = .ok n)
    (ha : s.hasAbsent v = false) (ha' : s'.hasAbsent v' = false)
    (hs : s.holdsShared v = false) (hs' : s'.holdsShared v' = false) (before : R v v')
    (after : ∀ bs w w', s.Filled order bs v w → s'.Filled order bs v' w' → R w w') :
    (s'.fromBytes order data v').result = (s.fromBytes order data v).result ∧
      R (s.fromBytes order data v).state (s'.fromBytes order data v').state := by
  by_cases hlt : data.length < n
  · rw [fromBytes_of_lt order hn hlt, fromBytes_of_lt order hn' hlt]
    exact ⟨rfl, before⟩
  · have hle := Nat.le_of_not_lt hlt
    obtain ⟨hw, hsize⟩ := targetSize_eq_ok_iff.1 hn
    obtain ⟨hw', hsize'⟩ := targetSize_eq_ok_iff.1 hn'
    obtain ⟨w, hdone, hfilled⟩ := fromBytes_of_size order hw ha hs hsize hle
    obtain ⟨w', hdone', hfilled'⟩ := fromBytes_of_size order hw' ha' hs' hsize' hle
    rw [hdone, hdone']
    exact ⟨rfl, after _ w w' hfilled hfilled'⟩

/-- **Two runs of decoding.** Into targets of one shape, and from at least as many bytes as their
size, decoding gives the same count or fails with the same error, whatever the numbers in the
targets and the bytes. If it succeeds, and the bytes within the size agree except in blank fields,
then the targets end equal. -/
theorem fromBytes_independent (order : ByteOrder) (s : Schema) (t₁ t₂ : s.Value)
    (data₁ data₂ : List UInt8) (ht : s.SameShape t₁ t₂)
    (enough : ∀ n, s.size t₁ = .ok n → n ≤ data₁.length ∧ n ≤ data₂.length) :
    (s.fromBytes order data₁ t₁).result = (s.fromBytes order data₂ t₂).result ∧
      ∀ n, (s.fromBytes order data₁ t₁).result = .ok n →
        Piece.Agree (s.pieces t₁) (data₁.take n) (data₂.take n) →
        (s.fromBytes order data₁ t₁).state = (s.fromBytes order data₂ t₂).state := by
  have htarget := targetSize_eq_of_sameShape ht
  have hresult : (s.fromBytes order data₁ t₁).result = (s.fromBytes order data₂ t₂).result := by
    cases hn : s.targetSize t₁ with
    | error e =>
      rw [fromBytes, fromBytes, ← htarget, hn]
      rfl
    | ok n =>
      obtain ⟨hd₁, hd₂⟩ := enough n (targetSize_eq_ok_iff.1 hn).2
      rw [result_fromBytes_of_size order hn hd₁, result_fromBytes_of_size order (htarget ▸ hn) hd₂,
        obstacle_eq_of_sameShape s t₁ t₂ ht]
  refine ⟨hresult, ?_⟩
  intro n hn hagree
  have hdone₁ := fromBytes_eq_done hn
  have hdone₂ := fromBytes_eq_done (hresult ▸ hn)
  have hsize := (targetSize_eq_ok_iff.1 (fromBytes_eq_done_iff.1 hdone₁).1).2
  exact eq_of_filled (admissible_of_size hsize) ht (filled_of_fromBytes hdone₁)
    (filled_of_fromBytes hdone₂) hagree

/-- Two shipments are filled alike from bytes that differ in the blank fields and behind the end. -/
theorem fromBytes_two_shipments :
    shipment.fromBytes .big [0xFF, 0xFE, 8, 8, 7, 8, 8, 1, 2, 3, 4] (shipmentOf 0 0 (some 0)) =
        .done 11 (shipmentOf 0xFFFE 7 (some 0x01020304)) ∧
      shipment.fromBytes .big [0xFF, 0xFE, 9, 0, 7, 1, 2, 1, 2, 3, 4, 0xAA]
          (shipmentOf 5 6 (some 7)) =
        .done 11 (shipmentOf 0xFFFE 7 (some 0x01020304)) := by
  have hshape : shipment.SameShape (shipmentOf 0 0 (some 0)) (shipmentOf 5 6 (some 7)) :=
    ⟨trivial, .cons ⟨trivial, trivial, trivial⟩ .nil, trivial⟩
  have hruns := fromBytes_independent .big shipment _ _
    [0xFF, 0xFE, 8, 8, 7, 8, 8, 1, 2, 3, 4] [0xFF, 0xFE, 9, 0, 7, 1, 2, 1, 2, 3, 4, 0xAA] hshape
    (fun n hn => by cases hn; decide)
  have hfirst : shipment.fromBytes .big [0xFF, 0xFE, 8, 8, 7, 8, 8, 1, 2, 3, 4]
      (shipmentOf 0 0 (some 0)) = .done 11 (shipmentOf 0xFFFE 7 (some 0x01020304)) := rfl
  have hstate := hruns.2 11 rfl (by decide)
  rw [hfirst] at hruns hstate
  exact ⟨hfirst, by rw [fromBytes_eq_done hruns.1.symm, ← hstate]; rfl⟩

end Schema

end ByteExact
