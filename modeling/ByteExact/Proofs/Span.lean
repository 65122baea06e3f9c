import Mathlib.Algebra.Ring.Nat
import ByteExact.Proofs.Shape
/-!
# Spans of values

The span of a value is the number that sizing works towards, over unbounded numbers. Sizing takes a
run whose elements have a fixed layout for as many extents of that layout, without a look at the
elements; everything else it adds up. So it comes across what is absent in some places and passes
over it in others.

Results:
* `size_outcome`: where the layout has a static width, sizing gives the span, unless it comes across
  something absent or some width does not fit.
* `size_eq_span`: a size that is reported is the span.
-/
namespace ByteExact

/-- What sizing can answer, given whether it comes across something absent and how wide the value
is. -/
inductive SizeOutcome (absent : Bool) (span : Nat) : Except Error Nat → Prop
  | measured (present : absent = false) (fits : span < Size.bound) :
      SizeOutcome absent span (.ok span)
  | refused (met : absent = true) : SizeOutcome absent span (.error .noValue)
  | overflow (large : Size.bound ≤ span) : SizeOutcome absent span (.error Size.overflow)

namespace SizeOutcome

theorem of_check {absent : Bool} {n : Nat} (present : absent = false) :
    SizeOutcome absent n (Size.check n) := by
  rw [Size.check]
  split
  · rename_i fits
    exact .measured present fits
  · rename_i large
    exact .overflow (Nat.le_of_not_lt large)

/-- A part of known width is added to a running total, and sizing goes on behind it. -/
theorem add {absent : Bool} {span₁ span₂ total : Nat} {rest : Nat → Except Error Nat}
    (h : total + span₁ < Size.bound →
      SizeOutcome absent (total + span₁ + span₂) (rest (total + span₁))) :
    SizeOutcome absent (total + (span₁ + span₂)) (Size.add total span₁ >>= rest) := by
  rw [← Nat.add_assoc]
  rcases Nat.lt_or_ge (total + span₁) Size.bound with fits | large
  · rw [Size.add_eq_ok_iff.2 ⟨fits, rfl⟩]
    exact h fits
  · have hadd : Size.add total span₁ = .error Size.overflow :=
      Size.check_eq_error_iff.2 ⟨large, rfl⟩
    rw [hadd]
    exact .overflow (by omega)

/-- A part is sized and added to a running total, and sizing goes on behind it. -/
theorem next {absent₁ absent₂ : Bool} {span₁ span₂ total : Nat} {part : Except Error Nat}
    {rest : Nat → Except Error Nat} (h₁ : SizeOutcome absent₁ span₁ part)
    (h₂ : total + span₁ < Size.bound →
      SizeOutcome absent₂ (total + span₁ + span₂) (rest (total + span₁))) :
    SizeOutcome (absent₁ || absent₂) (total + (span₁ + span₂))
      (part >>= fun n => Size.add total n >>= rest) := by
  cases h₁ with
  | refused met => exact .refused (by rw [met, Bool.true_or])
  | overflow large => exact .overflow (by omega)
  | measured present _ =>
    rw [present, Bool.false_or]
    exact add h₂

theorem eq_of_lt {absent : Bool} {span : Nat} {size : Except Error Nat}
    (h : SizeOutcome absent span size) (fits : span < Size.bound) :
    size = if absent then .error .noValue else .ok span := by
  cases h with
  | measured present _ => rw [present, if_neg Bool.false_ne_true]
  | refused met => rw [met, if_pos rfl]
  | overflow large => omega

theorem of_ok {absent : Bool} {span n : Nat} (h : SizeOutcome absent span (.ok n)) :
    absent = false ∧ n = span := by
  cases h with
  | measured present _ => exact ⟨present, rfl⟩

end SizeOutcome

namespace Schema

mutual

/-- The width that sizing works towards. -/
def span : (s : Schema) → s.Value → Nat
  | scalar kind, _ => kind.width
  | complex precision, _ => 2 * precision.width
  | machine _, _ => 0
  | run _ element, xs =>
    if element.layout.isFixed then element.layout.extent * xs.val.length
    else (xs.val.map element.span).sum
  | record _ fields, values => fields.span values
  | ref _ target, v => target.span v
  | optional target, v =>
    match v with
    | some v => target.span v
    | none => 0

def Fields.span : (fields : Fields) → fields.Values → Nat
  | .nil, _ => 0
  | .named _ schema rest, values => schema.span values.1 + rest.span values.2
  | .blank schema rest, values => schema.layout.extent + rest.span values

end

mutual

/-- Whether sizing comes across something absent: it looks at every part of the value except at the
elements of a run whose layout is fixed. -/
def showsAbsent : (s : Schema) → s.Value → Bool
  | scalar _, _ => false
  | complex _, _ => false
  | machine _, _ => false
  | run _ element, xs => !element.layout.isFixed && xs.val.any element.showsAbsent
  | record _ fields, values => fields.showsAbsent values
  | ref _ target, v => target.showsAbsent v
  | optional target, v =>
    match v with
    | some v => target.showsAbsent v
    | none => true

def Fields.showsAbsent : (fields : Fields) → fields.Values → Bool
  | .nil, _ => false
  | .named _ schema rest, values => schema.showsAbsent values.1 || rest.showsAbsent values.2
  | .blank _ rest, values => rest.showsAbsent values

end

theorem sumSizes_outcome {α : Type} {size : α → Except Error Nat} {absent : α → Bool}
    {span : α → Nat} (h : ∀ x, SizeOutcome (absent x) (span x) (size x)) (xs : List α) (total : Nat)
    (ht : total < Size.bound) :
    SizeOutcome (xs.any absent) (total + (xs.map span).sum) (sumSizes size xs total) := by
  induction xs generalizing total with
  | nil => exact .measured rfl ht
  | cons x xs ih => exact (h x).next (ih _)

theorem runSize_outcome {α : Type} {element : Layout} {w : Option Nat}
    (hw : element.staticWidth = .ok w) {size : α → Except Error Nat} {absent : α → Bool}
    {span : α → Nat} (h : ∀ x, SizeOutcome (absent x) (span x) (size x)) (xs : List α) :
    SizeOutcome (!element.isFixed && xs.any absent)
      (if element.isFixed then element.extent * xs.length else (xs.map span).sum)
      (runSize element size xs) := by
  have hext := Layout.staticWidth_eq element w hw
  -- The static width is there just if the layout is fixed, and then no element is sized.
  rw [runSize, hw]
  cases hf : element.isFixed with
  | true =>
    rw [hext, hf]
    exact .of_check rfl
  | false =>
    rw [hext, hf]
    have hsum := sumSizes_outcome h xs 0 (by decide)
    rw [Nat.zero_add] at hsum
    exact hsum

theorem width_lt_bound (kind : Scalar) : kind.width < Size.bound := by
  cases kind <;> decide

theorem complexWidth_lt_bound (precision : Precision) : 2 * precision.width < Size.bound := by
  cases precision <;> decide

mutual

theorem size_outcome : (s : Schema) → (w : Option Nat) → s.layout.staticWidth = .ok w →
    (v : s.Value) → SizeOutcome (s.showsAbsent v) (s.span v) (s.size v)
  | scalar kind, _, _, _ => .measured rfl (width_lt_bound kind)
  | complex precision, _, _, _ => .measured rfl (complexWidth_lt_bound precision)
  | machine _, _, h, _ => by cases h
  | run form element, w, h, xs => by
    obtain ⟨w, hw⟩ := staticWidth_of_run form h
    exact runSize_outcome hw (size_outcome element w hw) xs.val
  | record _ fields, w, h, values => by
    have hfields := Fields.size_outcome fields (some 0) w h values 0 (by decide)
    rw [Nat.zero_add] at hfields
    exact hfields
  | ref _ target, w, h, v => by
    obtain ⟨hp, h⟩ := staticWidth_pointer h
    have hc : checkTarget target = .ok () := checkTarget_eq_ok_iff.2 hp
    rw [size, hc]
    exact size_outcome target w h v
  | optional target, w, h, v => by
    obtain ⟨hp, h⟩ := staticWidth_pointer h
    have hc : checkTarget target = .ok () := checkTarget_eq_ok_iff.2 hp
    cases v with
    | none =>
      rw [size, hc]
      exact .refused rfl
    | some v =>
      rw [size, hc]
      exact size_outcome target w h v

theorem Fields.size_outcome : (fields : Fields) → (acc w : Option Nat) →
    fields.layout.staticWidth acc = .ok w → (values : fields.Values) → (total : Nat) →
    total < Size.bound →
    SizeOutcome (fields.showsAbsent values) (total + fields.span values) (fields.size values total)
  | .nil, _, _, _, _, _, ht => .measured rfl ht
  | .named _ schema rest, acc, w, h, values, total, _ => by
    obtain ⟨width, hwidth, h⟩ := bind_eq_ok_iff.1 h
    obtain ⟨sum, -, h⟩ := bind_eq_ok_iff.1 h
    exact (Schema.size_outcome schema width hwidth values.1).next
      (Fields.size_outcome rest sum w h values.2 _)
  | .blank schema rest, acc, w, h, values, total, _ => by
    obtain ⟨hb, sum, h⟩ := Fields.staticWidth_of_blank h
    rw [Fields.size, hb]
    exact SizeOutcome.add (Fields.size_outcome rest sum w h values _)

end

theorem size_eq_span {s : Schema} {v : s.Value} {n : Nat} (h : s.size v = .ok n) :
    s.showsAbsent v = false ∧ n = s.span v := by
  obtain ⟨w, hw, -⟩ := staticWidth_of_size s v n h
  have hout := size_outcome s w hw v
  rw [h] at hout
  exact hout.of_ok

end Schema

end ByteExact
