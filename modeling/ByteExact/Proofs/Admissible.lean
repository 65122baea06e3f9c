import ByteExact.Proofs.Extent
import ByteExact.Schema.Size
/-!
# Admissible schemas

Sizing, encoding and decoding a value refuse the same things about its schema: an integer of
machine width, a reference to a reference, a blank field without a width. A schema with none of
these is admissible. What is refused in an element of an empty run is found by the static width
alone, so this module ties the three together.

Results:
* `staticWidth_of_size`: a value with a size has a layout with a static width, which is that size
  or varies.
* `admissible_of_size`: a value with a size has an admissible schema.
-/
namespace ByteExact.Schema

mutual

/-- No part of the schema is refused, whatever the value. -/
def Admissible : Schema → Prop
  | machine _ => False
  | run _ element => element.Admissible
  | record _ fields => fields.Admissible
  | ref _ target => checkTarget target = .ok () ∧ target.Admissible
  | optional target => checkTarget target = .ok () ∧ target.Admissible
  | scalar _ | complex _ => True

def Fields.Admissible : Fields → Prop
  | .nil => True
  | .named _ schema rest => schema.Admissible ∧ rest.Admissible
  | .blank schema rest =>
    schema.layout.blankWidth = .ok schema.layout.extent ∧ rest.Admissible

end

theorem checkTarget_eq_ok_iff {target : Schema} {u : Unit} :
    checkTarget target = .ok u ↔ target.layout.isPointer = false := by
  rw [isPointer_layout, checkTarget]
  cases target.isReference <;> simp

/-! ## From static widths -/

theorem staticWidth_pointer {target : Layout} {w : Option Nat}
    (h : (Layout.pointer target).staticWidth = .ok w) :
    target.isPointer = false ∧ target.staticWidth = .ok w := by
  rw [Layout.staticWidth] at h
  split at h
  · cases h
  · exact ⟨by simpa using ‹¬ target.isPointer = true›, h⟩

theorem staticWidth_of_run (form : RunForm) {element : Schema} {w : Option Nat}
    (h : (run form element).layout.staticWidth = .ok w) :
    ∃ w, element.layout.staticWidth = .ok w := by
  cases form <;> exact (bind_eq_ok_iff.1 h).imp fun _ h => h.1

theorem Fields.staticWidth_of_blank {schema : Schema} {rest : Fields} {total w : Option Nat}
    (h : (Fields.blank schema rest).layout.staticWidth total = .ok w) :
    schema.layout.blankWidth = .ok schema.layout.extent ∧
      ∃ sum, rest.layout.staticWidth sum = .ok w := by
  obtain ⟨width, hwidth, h⟩ := bind_eq_ok_iff.1 h
  cases width with
  | none => cases h
  | some n =>
    obtain ⟨sum, -, h⟩ := bind_eq_ok_iff.1 h
    have hb : schema.layout.blankWidth = .ok n := by
      rw [Layout.blankWidth, hwidth]
      rfl
    refine ⟨?_, sum, h⟩
    rw [hb, (Layout.blankWidth_eq hb).2.2]

mutual

theorem admissible_of_staticWidth : (s : Schema) → (w : Option Nat) →
    s.layout.staticWidth = .ok w → s.Admissible
  | scalar _, _, _ => trivial
  | complex _, _, _ => trivial
  | machine _, _, h => by cases h
  | run form element, w, h => by
    obtain ⟨w, hw⟩ := staticWidth_of_run form h
    exact admissible_of_staticWidth element w hw
  | record _ fields, w, h => Fields.admissible_of_staticWidth fields (some 0) w h
  | ref _ target, w, h => by
    obtain ⟨hp, h⟩ := staticWidth_pointer h
    exact ⟨checkTarget_eq_ok_iff.2 hp, admissible_of_staticWidth target w h⟩
  | optional target, w, h => by
    obtain ⟨hp, h⟩ := staticWidth_pointer h
    exact ⟨checkTarget_eq_ok_iff.2 hp, admissible_of_staticWidth target w h⟩

theorem Fields.admissible_of_staticWidth : (fields : Fields) → (total w : Option Nat) →
    fields.layout.staticWidth total = .ok w → fields.Admissible
  | .nil, _, _, _ => trivial
  | .named _ schema rest, total, w, h => by
    obtain ⟨width, hwidth, h⟩ := bind_eq_ok_iff.1 h
    obtain ⟨sum, -, h⟩ := bind_eq_ok_iff.1 h
    exact ⟨Schema.admissible_of_staticWidth schema width hwidth,
      Fields.admissible_of_staticWidth rest sum w h⟩
  | .blank schema rest, total, w, h => by
    obtain ⟨hb, sum, h⟩ := Fields.staticWidth_of_blank h
    exact ⟨hb, Fields.admissible_of_staticWidth rest sum w h⟩

end

/-! ## From sizes -/

/-- A static width, if there is one, agrees with `n`. -/
def Agrees (w : Option Nat) (n : Nat) : Prop := w = none ∨ w = some n

theorem addWidths_agrees {total width : Option Nat} {a b n : Nat} (ht : Agrees total a)
    (hw : Agrees width b) (h : Size.add a b = .ok n) :
    ∃ sum, Layout.addWidths total width = .ok sum ∧ Agrees sum n := by
  rcases ht with rfl | rfl
  · exact ⟨none, rfl, .inl rfl⟩
  · rcases hw with rfl | rfl
    · exact ⟨none, rfl, .inl rfl⟩
    · refine ⟨some n, ?_, .inr rfl⟩
      rw [Layout.addWidths, h]
      rfl

theorem staticWidth_array {element : Layout} {α : Type} {size : α → Except Error Nat} {xs : List α}
    {length n : Nat} (hl : xs.length = length) (h : runSize element size xs = .ok n) :
    ∃ w, (Layout.array element length).staticWidth = .ok w ∧ Agrees w n := by
  obtain ⟨width, hwidth, h⟩ := bind_eq_ok_iff.1 h
  rw [Layout.staticWidth, hwidth]
  cases width with
  | none => exact ⟨none, rfl, .inl rfl⟩
  | some width =>
    have hmul : Size.mul width length = .ok n := hl ▸ h
    refine ⟨some n, ?_, .inr rfl⟩
    simp [bind, Except.bind, pure, Except.pure, hmul]

theorem staticWidth_slice {element : Layout} {α : Type} {size : α → Except Error Nat} {xs : List α}
    {n : Nat} (h : runSize element size xs = .ok n) :
    ∃ w, (Layout.slice element).staticWidth = .ok w ∧ Agrees w n := by
  obtain ⟨width, hwidth, -⟩ := bind_eq_ok_iff.1 h
  refine ⟨none, ?_, .inl rfl⟩
  rw [Layout.staticWidth, hwidth]
  rfl

theorem staticWidth_of_target {target : Schema} {n : Nat} (hc : checkTarget target = .ok ())
    (h : ∃ w, target.layout.staticWidth = .ok w ∧ Agrees w n) :
    ∃ w, (Layout.pointer target.layout).staticWidth = .ok w ∧ Agrees w n := by
  rw [Layout.staticWidth, checkTarget_eq_ok_iff.1 hc]
  exact h

mutual

theorem staticWidth_of_size : (s : Schema) → (v : s.Value) → (n : Nat) → s.size v = .ok n →
    ∃ w, s.layout.staticWidth = .ok w ∧ Agrees w n
  | scalar kind, _, n, h => ⟨some kind.width, rfl, .inr (by cases h; rfl)⟩
  | complex precision, _, n, h => ⟨some (2 * precision.width), rfl, .inr (by cases h; rfl)⟩
  | machine _, _, _, h => by cases h
  | run form element, xs, n, h => by
    cases form with
    | fixed length => exact staticWidth_array xs.property h
    | growable => exact staticWidth_slice h
    | view => exact staticWidth_slice h
  | record _ fields, values, n, h =>
    Fields.staticWidth_of_size fields values 0 n h (some 0) (.inr rfl)
  | ref _ target, v, n, h => by
    obtain ⟨_, hc, h⟩ := bind_eq_ok_iff.1 h
    exact staticWidth_of_target hc (staticWidth_of_size target v n h)
  | optional target, v, n, h => by
    obtain ⟨_, hc, h⟩ := bind_eq_ok_iff.1 h
    cases v with
    | none => cases h
    | some v => exact staticWidth_of_target hc (staticWidth_of_size target v n h)

theorem Fields.staticWidth_of_size : (fields : Fields) → (values : fields.Values) →
    (total n : Nat) → fields.size values total = .ok n →
    (acc : Option Nat) → Agrees acc total → ∃ w, fields.layout.staticWidth acc = .ok w ∧ Agrees w n
  | .nil, _, total, n, h, acc, hacc => by
    cases h
    exact ⟨acc, rfl, hacc⟩
  | .named _ schema rest, values, total, n, h, acc, hacc => by
    obtain ⟨m, hm, h⟩ := bind_eq_ok_iff.1 h
    obtain ⟨total', ht, h⟩ := bind_eq_ok_iff.1 h
    obtain ⟨width, hwidth, hw⟩ := Schema.staticWidth_of_size schema values.1 m hm
    obtain ⟨sum, hsum, hs⟩ := addWidths_agrees hacc hw ht
    obtain ⟨w, hrest, hn⟩ := Fields.staticWidth_of_size rest values.2 total' n h sum hs
    refine ⟨w, ?_, hn⟩
    rw [Fields.layout, Layout.Fields.staticWidth, hwidth]
    simpa [bind, Except.bind, hsum] using hrest
  | .blank schema rest, values, total, n, h, acc, hacc => by
    obtain ⟨m, hm, hadd⟩ := bind_eq_ok_iff.1 h
    obtain ⟨total', ht, h⟩ := bind_eq_ok_iff.1 hadd
    obtain ⟨hwidth, -, hext⟩ := Layout.blankWidth_eq hm
    rw [hext] at ht
    obtain ⟨sum, hsum, hs⟩ := addWidths_agrees hacc (.inr rfl) ht
    obtain ⟨w, hrest, hn⟩ := Fields.staticWidth_of_size rest values total' n h sum hs
    refine ⟨w, ?_, hn⟩
    rw [Fields.layout, Layout.Fields.staticWidth, hwidth]
    simpa [bind, Except.bind, hsum] using hrest

end

theorem admissible_of_size {s : Schema} {v : s.Value} {n : Nat} (h : s.size v = .ok n) :
    s.Admissible := by
  obtain ⟨w, hw, -⟩ := staticWidth_of_size s v n h
  exact admissible_of_staticWidth s w hw

end ByteExact.Schema
