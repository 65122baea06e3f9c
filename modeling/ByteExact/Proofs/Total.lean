import ByteExact.Proofs.Span
/-!
# Totals of pieces

The exact width of a value is the total of its pieces, over unbounded numbers. Extents, spans and
sizes count what is absent as if it were there, or not at all; where nothing is absent, they are
three ways to the same number.

Results:
* `within_extent`: the pieces of a value of a fixed layout are within the layout's extent.
* `within_span`: the pieces of a value are within its span.
* `size_eq_total`: where nothing is absent, a size that is reported is the total.
-/
namespace ByteExact.Schema

/-- A total is within a bound, and only falls short of it for something absent. -/
def Within (absent : Bool) (total bound : Nat) : Prop :=
  total ≤ bound ∧ (absent = false → total = bound)

theorem Within.of_eq {absent : Bool} {total bound : Nat} (h : total = bound) :
    Within absent total bound :=
  ⟨Nat.le_of_eq h, fun _ => h⟩

theorem Within.add {absent₁ absent₂ : Bool} {total₁ total₂ bound₁ bound₂ : Nat}
    (h₁ : Within absent₁ total₁ bound₁) (h₂ : Within absent₂ total₂ bound₂) :
    Within (absent₁ || absent₂) (total₁ + total₂) (bound₁ + bound₂) := by
  refine ⟨Nat.add_le_add h₁.1 h₂.1, ?_⟩
  intro h
  obtain ⟨ha₁, ha₂⟩ := Bool.or_eq_false_iff.1 h
  rw [h₁.2 ha₁, h₂.2 ha₂]

theorem within_flatMap {α : Type} {absent : α → Bool} {pieces : α → List Piece} {bound : α → Nat}
    (h : ∀ x, Within (absent x) (Piece.total (pieces x)) (bound x)) (xs : List α) :
    Within (xs.any absent) (Piece.total (xs.flatMap pieces)) (xs.map bound).sum := by
  induction xs with
  | nil => exact .of_eq rfl
  | cons x xs ih =>
    rw [List.flatMap_cons, Piece.total_append, List.map_cons, List.sum_cons, List.any_cons]
    exact (h x).add ih

theorem sum_map_const {α : Type} (xs : List α) (w : Nat) :
    (xs.map fun _ => w).sum = w * xs.length := by
  rw [List.map_const', List.sum_replicate_nat, Nat.mul_comm]

theorem total_flatMap_of_const {α : Type} (pieces : α → List Piece) (w : Nat) (xs : List α)
    (h : ∀ x, Piece.total (pieces x) = w) : Piece.total (xs.flatMap pieces) = w * xs.length := by
  have hwidth : ∀ x, Within false (Piece.total (pieces x)) w := fun x => .of_eq (h x)
  have hw := within_flatMap hwidth xs
  rw [hw.2 (List.any_eq_false.2 fun _ _ => Bool.false_ne_true), sum_map_const]

mutual

theorem within_extent : (s : Schema) → (v : s.Value) → s.layout.isFixed = true →
    Within (s.hasAbsent v) (Piece.total (s.pieces v)) s.layout.extent
  | scalar _, _, _ => .of_eq rfl
  | complex precision, _, _ => by
    refine .of_eq ?_
    show precision.width + (precision.width + 0) = 2 * precision.width
    omega
  | machine _, _, _ => .of_eq rfl
  | run form element, xs, hf => by
    cases form with
    | fixed length =>
      have hl : xs.val.length = length := xs.property
      have hw := within_flatMap (fun x => within_extent element x hf) xs.val
      rw [sum_map_const, hl] at hw
      exact hw
    | growable => cases hf
    | view => cases hf
  | record _ fields, values, hf => Fields.within_extent fields values hf
  | ref _ target, v, hf => within_extent target v hf
  | optional target, none, _ => ⟨Nat.zero_le _, nofun⟩
  | optional target, some v, hf => within_extent target v hf

theorem Fields.within_extent : (fields : Fields) → (values : fields.Values) →
    fields.layout.isFixed = true →
    Within (fields.hasAbsent values) (Piece.total (fields.pieces values)) fields.layout.extent
  | .nil, _, _ => .of_eq rfl
  | .named _ schema rest, values, hf => by
    obtain ⟨hf, hr⟩ := Bool.and_eq_true_iff.1 hf
    rw [Fields.pieces, Piece.total_append]
    exact (Schema.within_extent schema values.1 hf).add (Fields.within_extent rest values.2 hr)
  | .blank schema rest, values, hf => by
    obtain ⟨-, hr⟩ := Bool.and_eq_true_iff.1 hf
    have hblank : Within false schema.layout.extent schema.layout.extent := .of_eq rfl
    exact hblank.add (Fields.within_extent rest values hr)

end

mutual

theorem within_span : (s : Schema) → (v : s.Value) →
    Within (s.hasAbsent v) (Piece.total (s.pieces v)) (s.span v)
  | scalar _, _ => .of_eq rfl
  | complex precision, _ => within_extent (.complex precision) _ rfl
  | machine _, _ => .of_eq rfl
  | run _ element, xs => by
    rw [hasAbsent, pieces, span]
    split
    · rename_i hf
      rw [← sum_map_const]
      exact within_flatMap (fun x => within_extent element x hf) xs.val
    · exact within_flatMap (within_span element) xs.val
  | record _ fields, values => Fields.within_span fields values
  | ref _ target, v => within_span target v
  | optional target, none => .of_eq rfl
  | optional target, some v => within_span target v

theorem Fields.within_span : (fields : Fields) → (values : fields.Values) →
    Within (fields.hasAbsent values) (Piece.total (fields.pieces values)) (fields.span values)
  | .nil, _ => .of_eq rfl
  | .named _ schema rest, values => by
    rw [Fields.pieces, Piece.total_append]
    exact (Schema.within_span schema values.1).add (Fields.within_span rest values.2)
  | .blank schema rest, values => by
    have hblank : Within false schema.layout.extent schema.layout.extent := .of_eq rfl
    exact hblank.add (Fields.within_span rest values)

end

theorem total_le_of_size {s : Schema} {v : s.Value} {n : Nat} (h : s.size v = .ok n) :
    Piece.total (s.pieces v) ≤ n := by
  rw [(size_eq_span h).2]
  exact (within_span s v).1

theorem size_eq_total (s : Schema) (v : s.Value) (n : Nat) (h : s.size v = .ok n)
    (ha : s.hasAbsent v = false) : n = Piece.total (s.pieces v) := by
  rw [(size_eq_span h).2, (within_span s v).2 ha]

end ByteExact.Schema
