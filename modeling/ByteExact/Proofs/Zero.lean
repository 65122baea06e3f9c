import ByteExact.Proofs.Sizing
/-!
# Zero values

Every schema has a value in which all numbers are zero and nothing is absent. Its bytes are zeros,
as those of padding are; where the layout has a width, it has that for its size.

Results:
* `hasAbsent_zero`: nothing is absent from a zero value.
* `bytes_zero`: every piece of a zero value has the bytes of padding.
* `size_zero`, `total_zero`: its size is the width of the layout.
-/
namespace ByteExact

namespace Piece

theorem bytes_number_zero (order : ByteOrder) (kind : Scalar) :
    bytes order (number kind 0) = List.replicate kind.width 0 := by
  have hzero : kind.number 0 = 0 := by cases kind <;> rfl
  have hdigit : (fun i => UInt8.ofInt (0 / (Digits.weight (order.place kind.width i) : Int))) =
      fun _ => 0 := by
    funext i
    rw [Int.zero_ediv]
    rfl
  rw [bytes, hzero, hdigit, List.map_const', List.length_range]

theorem flatMap_bytes_of_zeros {order : ByteOrder} {ps : List Piece}
    (h : ∀ p ∈ ps, p.bytes order = List.replicate p.width 0) :
    ps.flatMap (bytes order) = List.replicate (total ps) 0 := by
  induction ps with
  | nil => rfl
  | cons p ps ih =>
    rw [List.flatMap_cons, h p List.mem_cons_self, ih fun q hq => h q (List.mem_cons_of_mem p hq),
      List.replicate_append_replicate, total_cons]

end Piece

namespace Schema

mutual

/-- The value in which every number is zero. Nothing is absent from it, and its sequences are
empty. -/
def zero : (s : Schema) → s.Value
  | scalar kind => (0 : Word kind.width)
  | complex precision => ((0 : Word precision.width), (0 : Word precision.width))
  | machine _ => (0 : Word 8)
  | run form element =>
    match form with
    | .fixed length => ⟨List.replicate length element.zero, List.length_replicate⟩
    | .growable => ⟨[], trivial⟩
    | .view => ⟨[], trivial⟩
  | record _ fields => fields.zero
  | ref _ target => target.zero
  | optional target => some target.zero

def Fields.zero : (fields : Fields) → fields.Values
  | .nil => ()
  | .named _ schema rest => (schema.zero, rest.zero)
  | .blank _ rest => rest.zero

end

mutual

theorem hasAbsent_zero : (s : Schema) → s.hasAbsent s.zero = false
  | scalar _ => rfl
  | complex _ => rfl
  | machine _ => rfl
  | run form element => by
    cases form with
    | fixed length =>
      refine List.any_eq_false.2 fun x hx => ?_
      rw [List.eq_of_mem_replicate hx, hasAbsent_zero element]
      exact Bool.false_ne_true
    | growable => rfl
    | view => rfl
  | record _ fields => Fields.hasAbsent_zero fields
  | ref _ target => hasAbsent_zero target
  | optional target => hasAbsent_zero target

theorem Fields.hasAbsent_zero : (fields : Fields) → fields.hasAbsent fields.zero = false
  | .nil => rfl
  | .named _ schema rest =>
    Bool.or_eq_false_iff.2 ⟨Schema.hasAbsent_zero schema, Fields.hasAbsent_zero rest⟩
  | .blank _ rest => Fields.hasAbsent_zero rest

end

mutual

theorem bytes_zero (order : ByteOrder) : (s : Schema) → ∀ p ∈ s.pieces s.zero,
    p.bytes order = List.replicate p.width 0
  | scalar kind, p, hp => by
    cases List.mem_singleton.1 hp
    exact Piece.bytes_number_zero order kind
  | complex precision, p, hp => by
    have hp : p = .number precision.part 0 := by
      rcases List.mem_cons.1 hp with rfl | hp
      · rfl
      · exact List.mem_singleton.1 hp
    rw [hp]
    exact Piece.bytes_number_zero order precision.part
  | machine _, p, hp => by cases hp
  | run form element, p, hp => by
    obtain ⟨x, hx, hpx⟩ := List.mem_flatMap.1 hp
    cases form with
    | fixed length =>
      rw [List.eq_of_mem_replicate hx] at hpx
      exact bytes_zero order element p hpx
    | growable => cases hx
    | view => cases hx
  | record _ fields, p, hp => Fields.bytes_zero order fields p hp
  | ref _ target, p, hp => bytes_zero order target p hp
  | optional target, p, hp => bytes_zero order target p hp

theorem Fields.bytes_zero (order : ByteOrder) : (fields : Fields) →
    ∀ p ∈ fields.pieces fields.zero, p.bytes order = List.replicate p.width 0
  | .nil, p, hp => by cases hp
  | .named _ schema rest, p, hp => by
    rcases List.mem_append.1 hp with hp | hp
    · exact Schema.bytes_zero order schema p hp
    · exact Fields.bytes_zero order rest p hp
  | .blank schema rest, p, hp => by
    rcases List.mem_cons.1 hp with rfl | hp
    · rfl
    · exact Fields.bytes_zero order rest p hp

end

theorem total_zero {s : Schema} (hf : s.layout.isFixed = true) :
    Piece.total (s.pieces s.zero) = s.layout.extent :=
  (within_extent s s.zero hf).2 (hasAbsent_zero s)

theorem size_zero {s : Schema} {n : Nat} (h : s.layout.staticWidth = .ok (some n)) :
    s.size s.zero = .ok n := by
  rw [size_of_width h, showsAbsent_eq_false h (hasAbsent_zero s), if_neg Bool.false_ne_true]

end Schema

end ByteExact
