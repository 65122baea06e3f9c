import ByteExact.Layout.Width
/-!
# Extents of layouts

The extent of a layout is its width over unbounded numbers, with no check on the way. A layout is
fixed if no slice occurs in it.

Results:
* `staticWidth_eq`: a static width that is reported is the extent, and it is reported for fixed
  layouts only.
* `blankWidth_eq`: the same of the width of a blank field, which must be fixed.
-/
namespace ByteExact.Layout

mutual

/-- The width over unbounded numbers, every slice being taken for empty. -/
def extent : Layout → Nat
  | scalar kind => kind.width
  | complex precision => 2 * precision.width
  | array element length => element.extent * length
  | slice _ => 0
  | record _ fields => fields.extent
  | pointer target => target.extent
  | unsupported _ => 0

def Fields.extent : Fields → Nat
  | .nil => 0
  | .cons _ layout rest => layout.extent + rest.extent

end

mutual

/-- Whether the width is the same for every value, no slice being part of the layout. -/
def isFixed : Layout → Bool
  | array element _ => element.isFixed
  | slice _ => false
  | record _ fields => fields.isFixed
  | pointer target => target.isFixed
  | scalar _ | complex _ | unsupported _ => true

def Fields.isFixed : Fields → Bool
  | .nil => true
  | .cons _ layout rest => layout.isFixed && rest.isFixed

end

theorem addWidths_eq {total width w : Option Nat} (h : addWidths total width = .ok w) :
    w = total.bind fun a => width.map (a + ·) := by
  cases total with
  | none => cases h; rfl
  | some a =>
    cases width with
    | none => cases h; rfl
    | some b =>
      obtain ⟨n, hn, h⟩ := bind_eq_ok_iff.1 h
      cases h
      rw [(Size.add_eq_ok_iff.1 hn).2.symm]
      rfl

mutual

theorem staticWidth_eq : (l : Layout) → (w : Option Nat) → l.staticWidth = .ok w →
    w = if l.isFixed then some l.extent else none
  | scalar kind, w, h => by cases h; rfl
  | complex precision, w, h => by cases h; rfl
  | array element length, w, h => by
    obtain ⟨width, hwidth, h⟩ := bind_eq_ok_iff.1 h
    have ih := staticWidth_eq element width hwidth
    cases width with
    | none =>
      cases h
      split at ih <;> simp_all [isFixed]
    | some width =>
      obtain ⟨n, hn, h⟩ := bind_eq_ok_iff.1 h
      cases h
      have := (Size.mul_eq_ok_iff.1 hn).2
      split at ih <;> simp_all [isFixed, extent]
  | slice element, w, h => by
    obtain ⟨_, _, h⟩ := bind_eq_ok_iff.1 h
    cases h
    rfl
  | record _ fields, w, h => by
    rw [Fields.staticWidth_eq fields (some 0) w h, Option.map_some, Nat.zero_add]
    rfl
  | pointer target, w, h => by
    rw [staticWidth] at h
    split at h
    · cases h
    · exact staticWidth_eq target w h
  | unsupported name, w, h => by cases h

theorem Fields.staticWidth_eq : (fields : Fields) → (total w : Option Nat) →
    fields.staticWidth total = .ok w →
    w = if fields.isFixed then total.map (· + fields.extent) else none
  | .nil, total, w, h => by
    cases h
    simp [Fields.isFixed, Fields.extent]
  | .cons label layout rest, total, w, h => by
    obtain ⟨width, hwidth, h⟩ := bind_eq_ok_iff.1 h
    have hl := Layout.staticWidth_eq layout width hwidth
    split at h
    · cases h
    · obtain ⟨sum, hsum, h⟩ := bind_eq_ok_iff.1 h
      have ih := Fields.staticWidth_eq rest sum w h
      rw [addWidths_eq hsum] at ih
      rw [ih, hl]
      cases hf : layout.isFixed <;> cases total <;>
        simp [Fields.isFixed, Fields.extent, hf, Nat.add_assoc]

end

theorem blankWidth_eq {l : Layout} {w : Nat} (h : l.blankWidth = .ok w) :
    l.staticWidth = .ok (some l.extent) ∧ l.isFixed = true ∧ w = l.extent := by
  obtain ⟨width, hwidth, h⟩ := bind_eq_ok_iff.1 h
  have hs := staticWidth_eq l width hwidth
  cases width with
  | none => cases h
  | some n =>
    cases h
    split at hs
    · cases hs
      exact ⟨hwidth, ‹_›, rfl⟩
    · cases hs

end ByteExact.Layout
