import ByteExact.Proofs.Defect
/-!
# Widths that do not fit

The static width of a layout is its extent, unless something in the layout keeps it from being
worked out. There are two such things: a defect, and a width on the way that does not fit in 64
bits. On the way stand the width of every array whose element has one, and the width of the leading
fields of every record, up to the first that varies. They are worked out wherever the layout comes,
also below a slice, below a reference, and below an array without elements.

Results:
* `weighed_staticWidth`: a static width is reported only if no width overflows, and refused as too
  large only if one does.
* `staticWidth_exact`: the static width against defects, overflow and extent.
-/
namespace ByteExact

namespace Layout

/-- The extent of the fields ahead of the first that varies. -/
def Fields.leadExtent : Fields → Nat
  | .nil => 0
  | .cons _ layout rest => if layout.isFixed then layout.extent + rest.leadExtent else 0

mutual

/-- Whether an array or the leading fields of a record, at any depth, are too wide. -/
def overflows : Layout → Bool
  | array element length =>
    element.overflows || (element.isFixed && decide (Size.bound ≤ element.extent * length))
  | slice element => element.overflows
  | record _ fields => fields.overflows || decide (Size.bound ≤ fields.leadExtent)
  | pointer target => target.overflows
  | scalar _ | complex _ | unsupported _ => false

def Fields.overflows : Fields → Bool
  | .nil => false
  | .cons _ layout rest => layout.overflows || rest.overflows

end

end Layout

/-- What working out a width can come to, given whether one on the way overflows. -/
inductive Weighed {α : Type} (overflows : Bool) : Except Error α → Prop
  | fits (a : α) (within : overflows = false) : Weighed overflows (.ok a)
  | overflow (beyond : overflows = true) : Weighed overflows (.error Size.overflow)
  | refused (text : String) : Weighed overflows (.error (.unsupportedType text))

namespace Weighed

variable {α β : Type} {overflows overflows₁ overflows₂ : Bool}

/-- One width is worked out, and the rest behind it. -/
theorem bind {part : Except Error α} {rest : α → Except Error β} (h₁ : Weighed overflows₁ part)
    (h₂ : ∀ a, part = .ok a → Weighed overflows₂ (rest a)) :
    Weighed (overflows₁ || overflows₂) (part >>= rest) := by
  cases h₁ with
  | fits a within =>
    rw [within, Bool.false_or]
    exact h₂ a rfl
  | overflow beyond => exact .overflow (by rw [beyond, Bool.true_or])
  | refused text => exact .refused text

/-- A width is worked out, and nothing behind it can overflow. -/
theorem last {part : Except Error α} {rest : α → Except Error β} (h₁ : Weighed overflows part)
    (h₂ : ∀ a, part = .ok a → Weighed false (rest a)) : Weighed overflows (part >>= rest) := by
  have h := h₁.bind h₂
  rwa [Bool.or_false] at h

theorem check (n : Nat) : Weighed (decide (Size.bound ≤ n)) (Size.check n) := by
  unfold Size.check
  split
  · rename_i hlt
    exact .fits n (by simpa using hlt)
  · rename_i hle
    exact .overflow (by simpa using hle)

end Weighed

namespace Layout

/-- Whether the leading fields overflow behind others of the width `total`, if these have one. -/
def Fields.leadOverflows (fields : Fields) : Option Nat → Bool
  | none => false
  | some total => decide (Size.bound ≤ total + fields.leadExtent)

/-- A width is added to the total, and the fields behind it are weighed. -/
theorem weighed_addWidths {label : Option String} {layout : Layout} {rest : Fields}
    {total : Option Nat} (ht : ∀ a ∈ total, a < Size.bound)
    (h : ∀ sum : Option Nat, (∀ a ∈ sum, a < Size.bound) →
      Weighed (rest.overflows || rest.leadOverflows sum) (rest.staticWidth sum)) :
    Weighed (rest.overflows || (Fields.cons label layout rest).leadOverflows total)
      (addWidths total (if layout.isFixed then some layout.extent else none) >>=
        rest.staticWidth) := by
  cases total with
  | none => exact h none nofun
  | some a =>
    have ha := ht a rfl
    cases hf : layout.isFixed with
    | false =>
      have hlead : (Fields.cons label layout rest).leadOverflows (some a) = false := by
        simp [Fields.leadOverflows, Fields.leadExtent, hf, ha]
      rw [hlead]
      exact h none nofun
    | true =>
      have hlead : (Fields.cons label layout rest).leadOverflows (some a) =
          rest.leadOverflows (some (a + layout.extent)) := by
        simp [Fields.leadOverflows, Fields.leadExtent, hf, Nat.add_assoc]
      rw [hlead, if_pos rfl, addWidths]
      by_cases hfits : a + layout.extent < Size.bound
      · rw [Size.add_eq_ok_iff.2 ⟨hfits, rfl⟩]
        exact h (some (a + layout.extent)) fun b hb => by cases hb; exact hfits
      · have hadd : Size.add a layout.extent = .error Size.overflow :=
          Size.check_eq_error_iff.2 ⟨by omega, rfl⟩
        have hbeyond : rest.leadOverflows (some (a + layout.extent)) = true := by
          simp only [Fields.leadOverflows, decide_eq_true_eq]
          omega
        rw [hadd, hbeyond, Bool.or_true]
        exact .overflow rfl

mutual

theorem weighed_staticWidth : (l : Layout) → Weighed l.overflows l.staticWidth
  | scalar kind => .fits _ rfl
  | complex precision => .fits _ rfl
  | array element length => by
    refine (weighed_staticWidth element).bind fun width hwidth => ?_
    rw [staticWidth_eq element width hwidth]
    cases element.isFixed with
    | false => exact .fits none rfl
    | true => exact (Weighed.check _).last fun n _ => .fits (some n) rfl
  | slice element => (weighed_staticWidth element).last fun _ _ => .fits none rfl
  | record _ fields => by
    have hfields := Fields.weighed_staticWidth fields (some 0) fun a ha => by cases ha; decide
    rw [Fields.leadOverflows, Nat.zero_add] at hfields
    exact hfields
  | pointer target => by
    rw [staticWidth]
    split
    · exact .refused _
    · exact weighed_staticWidth target
  | unsupported name => .refused name

/-- The total so far fits, so only what is added to it can overflow. -/
theorem Fields.weighed_staticWidth : (fields : Fields) → (total : Option Nat) →
    (∀ a ∈ total, a < Size.bound) →
    Weighed (fields.overflows || fields.leadOverflows total) (fields.staticWidth total)
  | .nil, none, _ => .fits none rfl
  | .nil, some a, ht => by
    have within : ¬ Size.bound ≤ a + Fields.nil.leadExtent := Nat.not_le.2 (ht a rfl)
    exact .fits (some a) (decide_eq_false within)
  | .cons label layout rest, total, ht => by
    rw [Fields.overflows, Bool.or_assoc]
    refine (Layout.weighed_staticWidth layout).bind fun width hwidth => ?_
    split
    · exact .refused _
    · rw [staticWidth_eq layout width hwidth]
      exact weighed_addWidths ht (Fields.weighed_staticWidth rest)

end

theorem overflows_of_staticWidth {l : Layout} {w : Option Nat} (h : l.staticWidth = .ok w) :
    l.overflows = false := by
  have hw := weighed_staticWidth l
  rw [h] at hw
  cases hw with
  | fits _ within => exact within

theorem staticWidth_of_clear {l : Layout} (hd : l.defects = []) (ho : l.overflows = false) :
    l.staticWidth = .ok (if l.isFixed then some l.extent else none) := by
  have hi := inspection_staticWidth l
  have hw := weighed_staticWidth l
  rw [hd] at hi
  rw [ho] at hw
  cases hwidth : l.staticWidth with
  | ok w => rw [staticWidth_eq l w hwidth]
  | error e =>
    rw [hwidth] at hi hw
    cases hi with
    | named first _ => cases first
    | absent met => cases met
    | overflow => cases hw with
      | overflow beyond => cases beyond

theorem staticWidth_eq_ok_iff {l : Layout} {w : Option Nat} :
    l.staticWidth = .ok w ↔
      l.defects = [] ∧ l.overflows = false ∧ w = if l.isFixed then some l.extent else none := by
  constructor
  · intro h
    exact ⟨defects_of_staticWidth h, overflows_of_staticWidth h, staticWidth_eq l w h⟩
  · rintro ⟨hd, ho, rfl⟩
    exact staticWidth_of_clear hd ho

/-- **The width function.** A layout has a static width just if it has no defect, no slice, and no
width in it that overflows, and then that is its extent. With a slice, and the rest as before, it is
known to vary. Otherwise the answer is the refusal of a type, which names the first defect, or the
largest size there is, for a width that overflows. -/
theorem staticWidth_exact (l : Layout) :
    (∀ w, l.staticWidth = .ok (some w) ↔
        l.defects = [] ∧ l.overflows = false ∧ l.isFixed = true ∧ w = l.extent) ∧
      (l.staticWidth = .ok none ↔
        l.defects = [] ∧ l.overflows = false ∧ l.isFixed = false) ∧
      (∀ text, l.staticWidth = .error (.unsupportedType text) →
        ∃ defect, l.defects.head? = some defect ∧ defect.NamedBy text) ∧
      (∀ n, l.staticWidth = .error (.oversizedValue n) →
        n = 18446744073709551615 ∧ l.overflows = true) ∧
      ∀ e, l.staticWidth = .error e →
        (∃ text, e = .unsupportedType text) ∨ e = .oversizedValue 18446744073709551615 := by
  refine ⟨?_, ?_, ?_, ?_, ?_⟩
  · intro w
    rw [staticWidth_eq_ok_iff]
    cases l.isFixed <;> simp
  · rw [staticWidth_eq_ok_iff]
    cases l.isFixed <;> simp
  · intro text h
    have hi := inspection_staticWidth l
    rw [h] at hi
    cases hi with
    | named first names => exact ⟨_, first, names⟩
  · intro n h
    have hw := weighed_staticWidth l
    rw [h] at hw
    cases hw with
    | overflow beyond => exact ⟨rfl, beyond⟩
  · intro e h
    have hw := weighed_staticWidth l
    rw [h] at hw
    cases hw with
    | overflow _ => exact .inr rfl
    | refused text => exact .inl ⟨text, rfl⟩

/-- A record of a reference to two numbers and no elements of another record, which has a sequence
in it if `element` has one. -/
def frame (element : Layout) : Layout :=
  record "Frame" (.cons (some "head") (pointer (array (scalar .uint32) 2))
    (.cons none (scalar .int16) (.cons (some "rows") (array (record "Row"
      (.cons (some "cells") element .nil)) 0) .nil)))

/-- Frames differ in what stands below an array without elements: a number, a sequence, an array
that is too wide, a type without a width. -/
theorem staticWidth_frame :
    (frame (scalar .uint8)).staticWidth = .ok (some 10) ∧
      (frame (slice (scalar .uint8))).staticWidth = .ok none ∧
      (frame (array (scalar .uint64) 2305843009213693952)).staticWidth =
        .error (.oversizedValue 18446744073709551615) ∧
      (frame (array (scalar .uint64) 2305843009213693952)).overflows = true ∧
      (frame (unsupported "usize")).staticWidth = .error (.unsupportedType "usize") ∧
      ∃ defect, (frame (unsupported "usize")).defects.head? = some defect ∧
        defect.NamedBy "usize" := by
  have hnumber := (staticWidth_exact (frame (scalar .uint8))).1 10
  have hslice := (staticWidth_exact (frame (slice (scalar .uint8)))).2.1
  have hwide := (staticWidth_exact (frame (array (scalar .uint64) 2305843009213693952))).2.2.2.1
  have hname := (staticWidth_exact (frame (unsupported "usize"))).2.2.1
  exact ⟨hnumber.2 ⟨rfl, rfl, rfl, rfl⟩, hslice.2 ⟨rfl, rfl, rfl⟩, rfl,
    (hwide 18446744073709551615 rfl).2, rfl, hname "usize" rfl⟩

end Layout

end ByteExact
