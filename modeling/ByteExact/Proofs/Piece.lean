import Mathlib.Data.List.Forall2
import ByteExact.ByteOrder.Slice
import ByteExact.Proofs.Extent
import ByteExact.Schema
/-!
# Pieces of a value

A value is a row of pieces in declaration and index order: one for each number, the two parts of a
complex number among them, and one for each blank field. The pieces say what an encoding consists
of without a word about encoders: a piece has a width and bytes of its own, and runs, records and
references add nothing.

Results:
* `bytes_number`: the digits of a number in two's complement are the bytes of its word.
* `refill_bytes`: refilling pieces from the bytes of pieces of the same kinds gives those.
* `bytes_refill`: the bytes of refilled pieces are those they were refilled from, with zeros in the
  place of padding.
-/
namespace ByteExact

inductive Piece
  /-- A number of fixed width. -/
  | number (kind : Scalar) (bits : Word kind.width)
  /-- A blank field of a layout. -/
  | padding (layout : Layout)

/-! ## Two's complement -/

open Digits (weight weight_eq_pow weight_add weight_pos)

theorem ofInt_natCast (n : Nat) : UInt8.ofInt (n : Int) = UInt8.ofNat n := by
  apply UInt8.toNat_inj.mp
  rw [UInt8.ofInt, UInt8.toNat_ofNat', UInt8.toNat_ofNat']
  omega

/-- Below its width, a word has the same digits read with and without a sign. -/
theorem ofInt_toInt_ediv {w : Nat} (bits : Word w) (p : Nat) (hp : p < w) :
    UInt8.ofInt (bits.toInt / weight p) = UInt8.ofNat (bits.toNat / weight p) := by
  rw [← ofInt_natCast, Int.natCast_ediv, BitVec.toInt_eq_toNat_cond]
  split
  · rfl
  · have hw : 2 ^ (8 * w) = weight p * (256 * weight (w - p - 1)) := by
      have hsplit := weight_add p (w - p - 1 + 1)
      rw [show p + (w - p - 1 + 1) = w by omega, weight_eq_pow w] at hsplit
      exact hsplit
    have hpos : (weight p : Int) ≠ 0 := Int.natCast_ne_zero.2 (Nat.pos_iff_ne_zero.1 (weight_pos p))
    rw [hw, Int.natCast_mul, Int.sub_eq_add_neg, ← Int.mul_neg, Int.add_mul_ediv_left _ _ hpos,
      UInt8.ofInt, UInt8.ofInt]
    congr 2
    omega

theorem digit_number (kind : Scalar) (bits : Word kind.width) (p : Nat) (hp : p < kind.width) :
    UInt8.ofInt (kind.number bits / weight p) = UInt8.ofNat (bits.toNat / weight p) := by
  rw [Scalar.number]
  split
  · exact ofInt_toInt_ediv bits p hp
  · rw [← Int.natCast_ediv, ofInt_natCast]

theorem ByteOrder.place_lt (order : ByteOrder) {w i : Nat} (h : i < w) : order.place w i < w := by
  cases order
  · simp only [place]; omega
  · exact h

namespace Piece

def width : Piece → Nat
  | number kind _ => kind.width
  | padding layout => layout.extent

def isPadding : Piece → Bool
  | number _ _ => false
  | padding _ => true

/-- The bytes of a piece: for a number its base-256 digits in two's complement, each at its place,
and zeros for padding. -/
def bytes (order : ByteOrder) : Piece → List UInt8
  | number kind bits => (List.range kind.width).map fun i =>
      UInt8.ofInt (kind.number bits / weight (order.place kind.width i))
  | padding layout => List.replicate layout.extent 0

/-- A piece after the bytes of its place were read into it. -/
def refilled (order : ByteOrder) (bs : List UInt8) : Piece → Piece
  | number kind _ => number kind (order.word kind.width bs)
  | padding layout => padding layout

/-- Refill pieces from consecutive bytes, each from its own. -/
def refill (order : ByteOrder) : List Piece → List UInt8 → List Piece
  | [], _ => []
  | p :: ps, bs => p.refilled order (bs.take p.width) :: refill order ps (bs.drop p.width)

/-- The width of pieces back to back. -/
def total : List Piece → Nat
  | [] => 0
  | p :: ps => p.width + total ps

/-- For every byte of pieces back to back, whether it is padding. -/
def mask (ps : List Piece) : List Bool := ps.flatMap fun p => List.replicate p.width p.isPadding

/-- A byte as it is, or zero in the place of padding. -/
def masked (isPadding : Bool) (b : UInt8) : UInt8 := if isPadding then 0 else b

/-- The bytes of pieces with zeros in the place of padding. -/
def canonical (ps : List Piece) (bs : List UInt8) : List UInt8 := List.zipWith masked (mask ps) bs

/-- Pieces that differ in the bits of a number at most. -/
inductive Alike : Piece → Piece → Prop
  | number (kind : Scalar) (a b : Word kind.width) : Alike (number kind a) (number kind b)
  | padding (layout : Layout) : Alike (padding layout) (padding layout)

theorem bytes_number (order : ByteOrder) (kind : Scalar) (bits : Word kind.width) :
    bytes order (number kind bits) = order.bytes kind.width bits.toNat := by
  rw [bytes, ByteOrder.bytes_eq_map]
  apply List.map_congr_left
  intro i hi
  exact digit_number kind bits _ (order.place_lt (List.mem_range.1 hi))

@[simp] theorem length_bytes (order : ByteOrder) (p : Piece) :
    (p.bytes order).length = p.width := by
  cases p <;> simp [bytes, width]

@[simp] theorem total_nil : total [] = 0 := rfl

@[simp] theorem total_cons (p : Piece) (ps : List Piece) :
    total (p :: ps) = p.width + total ps := rfl

@[simp] theorem total_append (ps qs : List Piece) : total (ps ++ qs) = total ps + total qs := by
  induction ps with
  | nil => exact (Nat.zero_add _).symm
  | cons p ps ih => rw [List.cons_append, total_cons, total_cons, ih, Nat.add_assoc]

theorem length_flatMap_bytes (order : ByteOrder) (ps : List Piece) :
    (ps.flatMap (bytes order)).length = total ps := by
  induction ps with
  | nil => rfl
  | cons p ps ih => simp [ih]

theorem length_mask (ps : List Piece) : (mask ps).length = total ps := by
  induction ps with
  | nil => rfl
  | cons p ps ih => simpa [mask] using ih

theorem length_canonical (ps : List Piece) (bs : List UInt8) :
    (canonical ps bs).length = min (total ps) bs.length := by
  rw [canonical, List.length_zipWith, length_mask]

/-! ## Pieces that are alike -/

theorem Alike.symm {p q : Piece} (h : Alike p q) : Alike q p := by
  cases h with
  | number kind a b => exact .number kind b a
  | padding layout => exact .padding layout

theorem Alike.width_eq {p q : Piece} (h : Alike p q) : p.width = q.width := by
  cases h <;> rfl

/-! ## Bytes and pieces -/

theorem Alike.refilled_bytes {p q : Piece} (order : ByteOrder) (h : Alike p q) :
    p.refilled order (q.bytes order) = q := by
  cases h with
  | number kind a b => rw [refilled, bytes_number, ByteOrder.word_bytes]
  | padding layout => rfl

theorem refill_bytes (order : ByteOrder) {ps qs : List Piece} (h : List.Forall₂ Alike ps qs)
    (rest : List UInt8) : refill order ps (qs.flatMap (bytes order) ++ rest) = qs := by
  induction h with
  | nil => rfl
  | @cons p q ps qs hpq _ ih =>
    have hw : (q.bytes order).length = p.width := by rw [length_bytes, hpq.width_eq]
    rw [refill, List.flatMap_cons, List.append_assoc, List.take_left' hw, List.drop_left' hw, ih,
      hpq.refilled_bytes]

theorem zipWith_masked (isPadding : Bool) (bs : List UInt8) :
    List.zipWith masked (List.replicate bs.length isPadding) bs =
      if isPadding then List.replicate bs.length 0 else bs := by
  induction bs with
  | nil => cases isPadding <;> rfl
  | cons b bs ih => cases isPadding <;> simp_all [List.replicate_succ, masked]

theorem canonical_of_isPadding {ps : List Piece} (h : ∀ p ∈ ps, p.isPadding = false)
    {bs : List UInt8} (hb : bs.length = total ps) : canonical ps bs = bs := by
  have hmask : mask ps = List.replicate bs.length false := by
    rw [List.eq_replicate_iff, length_mask, hb]
    refine ⟨rfl, ?_⟩
    intro place hplace
    obtain ⟨p, hp, hplace⟩ := List.mem_flatMap.1 hplace
    rw [List.eq_of_mem_replicate hplace, h p hp]
  rw [canonical, hmask, zipWith_masked]
  rfl

theorem bytes_refilled (order : ByteOrder) (p : Piece) (bs : List UInt8) (h : bs.length = p.width) :
    (p.refilled order bs).bytes order =
      List.zipWith masked (List.replicate p.width p.isPadding) bs := by
  rw [← h, zipWith_masked]
  cases p with
  | number kind bits =>
    have hw : kind.width = bs.length := h.symm
    rw [refilled, bytes_number, hw, ByteOrder.bytes_word]
    rfl
  | padding layout =>
    have hw : layout.extent = bs.length := h.symm
    rw [refilled, bytes, hw]
    rfl

theorem bytes_refill (order : ByteOrder) (ps : List Piece) (bs : List UInt8)
    (h : total ps ≤ bs.length) :
    (refill order ps bs).flatMap (bytes order) = canonical ps bs := by
  induction ps generalizing bs with
  | nil => simp [refill, canonical, mask]
  | cons p ps ih =>
    rw [total_cons] at h
    have htake : (bs.take p.width).length = p.width := by rw [List.length_take]; omega
    have hdrop : total ps ≤ (bs.drop p.width).length := by rw [List.length_drop]; omega
    rw [refill, List.flatMap_cons, bytes_refilled order p _ htake, ih _ hdrop, canonical, canonical,
      ← List.zipWith_append (by simp [htake]), List.take_append_drop]
    rfl

end Piece

namespace Schema

mutual

/-- The pieces of a value, in declaration and index order. -/
def pieces : (s : Schema) → s.Value → List Piece
  | scalar kind, v => [.number kind v]
  | complex precision, v => [.number precision.part v.1, .number precision.part v.2]
  | machine _, _ => []
  | run _ element, xs => xs.val.flatMap element.pieces
  | record _ fields, values => fields.pieces values
  | ref _ target, v => target.pieces v
  | optional target, v =>
    match v with
    | some v => target.pieces v
    | none => []

def Fields.pieces : (fields : Fields) → fields.Values → List Piece
  | .nil, _ => []
  | .named _ schema rest, values => schema.pieces values.1 ++ rest.pieces values.2
  | .blank schema rest, values => .padding schema.layout :: rest.pieces values

end

end Schema

end ByteExact
