import ByteExact.Proofs.Defect
import ByteExact.Proofs.Total
/-!
# Sizing

A size is worked out twice over: from the layout alone, as the static width of every value of it,
and from a value. Both work with sums and products that are refused when they do not fit in 64 bits.
Here the two are compared with each other, and the size with the total of the pieces, which is the
width over unbounded numbers.

Results:
* `span_within_extent`, `staticWidth_lt_bound`: what a static width says about a value.
* `size_of_staticWidth`: the size of a value against the static width of its layout.
* `staticWidth_of_total`: a value that is narrow enough has a layout with a static width.
* `size_eq_total_or_overflow`: a size is the total of the pieces, or does not fit.
-/
namespace ByteExact

/-! ## Static widths -/

namespace Layout

theorem isFixed_of_staticWidth {l : Layout} {n : Nat} (h : l.staticWidth = .ok (some n)) :
    l.isFixed = true ∧ n = l.extent := by
  have hw := staticWidth_eq l (some n) h
  split at hw
  · rename_i hf
    cases hw
    exact ⟨hf, rfl⟩
  · cases hw

theorem addWidths_lt_bound {total width : Option Nat} {n : Nat}
    (h : addWidths total width = .ok (some n)) : n < Size.bound := by
  unfold addWidths at h
  split at h
  · obtain ⟨sum, hsum, h⟩ := bind_eq_ok_iff.1 h
    cases h
    obtain ⟨fits, rfl⟩ := Size.add_eq_ok_iff.1 hsum
    exact fits
  · cases h

mutual

theorem staticWidth_lt_bound : (l : Layout) → {n : Nat} → l.staticWidth = .ok (some n) →
    n < Size.bound
  | scalar kind, n, h => by
    cases h
    exact Schema.width_lt_bound kind
  | complex precision, n, h => by
    cases h
    exact Schema.complexWidth_lt_bound precision
  | array element length, n, h => by
    obtain ⟨width, -, h⟩ := bind_eq_ok_iff.1 h
    cases width with
    | none => cases h
    | some width =>
      obtain ⟨product, hproduct, h⟩ := bind_eq_ok_iff.1 h
      cases h
      obtain ⟨fits, rfl⟩ := Size.mul_eq_ok_iff.1 hproduct
      exact fits
  | slice element, n, h => by
    obtain ⟨_, -, h⟩ := bind_eq_ok_iff.1 h
    cases h
  | record _ fields, n, h => Fields.staticWidth_lt_bound fields (by decide) h
  | pointer target, n, h => by
    obtain ⟨-, h⟩ := Schema.staticWidth_pointer h
    exact staticWidth_lt_bound target h
  | unsupported _, n, h => by cases h

theorem Fields.staticWidth_lt_bound : (fields : Fields) → {total : Option Nat} → {n : Nat} →
    (∀ a ∈ total, a < Size.bound) → fields.staticWidth total = .ok (some n) → n < Size.bound
  | .nil, total, n, ht, h => by
    cases h
    exact ht n rfl
  | .cons label layout rest, total, n, ht, h => by
    obtain ⟨width, -, h⟩ := bind_eq_ok_iff.1 h
    split at h
    · cases h
    · obtain ⟨sum, hsum, h⟩ := bind_eq_ok_iff.1 h
      refine Fields.staticWidth_lt_bound rest (fun a ha => ?_) h
      cases ha
      exact addWidths_lt_bound hsum

end

end Layout

namespace Schema

/-! ## Static widths and sizes -/

mutual

theorem span_within_extent : (s : Schema) → (v : s.Value) → s.layout.isFixed = true →
    Within (s.showsAbsent v) (s.span v) s.layout.extent
  | scalar _, _, _ => .of_eq rfl
  | complex _, _, _ => .of_eq rfl
  | machine _, _, _ => .of_eq rfl
  | run form element, xs, hf => by
    cases form with
    | fixed length =>
      have he : element.layout.isFixed = true := hf
      have hl : xs.val.length = length := xs.property
      rw [span, if_pos he, hl]
      exact .of_eq rfl
    | growable => cases hf
    | view => cases hf
  | record _ fields, values, hf => Fields.span_within_extent fields values hf
  | ref _ target, v, hf => span_within_extent target v hf
  | optional _, none, _ => ⟨Nat.zero_le _, nofun⟩
  | optional target, some v, hf => span_within_extent target v hf

theorem Fields.span_within_extent : (fields : Fields) → (values : fields.Values) →
    fields.layout.isFixed = true →
    Within (fields.showsAbsent values) (fields.span values) fields.layout.extent
  | .nil, _, _ => .of_eq rfl
  | .named _ schema rest, values, hf => by
    obtain ⟨hf, hr⟩ := Bool.and_eq_true_iff.1 hf
    exact (Schema.span_within_extent schema values.1 hf).add
      (Fields.span_within_extent rest values.2 hr)
  | .blank schema rest, values, hf => by
    obtain ⟨-, hr⟩ := Bool.and_eq_true_iff.1 hf
    have hblank : Within false schema.layout.extent schema.layout.extent := .of_eq rfl
    exact hblank.add (Fields.span_within_extent rest values hr)

end

theorem size_of_width {s : Schema} {n : Nat} (h : s.layout.staticWidth = .ok (some n))
    (v : s.Value) : s.size v = if s.showsAbsent v then .error .noValue else .ok n := by
  have hf := Layout.isFixed_of_staticWidth h
  have hspan := span_within_extent s v hf.1
  have hfits := Layout.staticWidth_lt_bound s.layout h
  have hle := hspan.1
  rw [(size_outcome s (some n) h v).eq_of_lt (by omega)]
  cases hshow : s.showsAbsent v with
  | true => rfl
  | false => rw [hspan.2 hshow, hf.2]

theorem hasAbsent_of_size {s : Schema} {v : s.Value} (h : s.size v = .error .noValue) :
    s.hasAbsent v = true := by
  have hi := inspection_size s v
  rw [h] at hi
  cases hi with
  | absent met => exact met

theorem showsAbsent_eq_false {s : Schema} {n : Nat} (h : s.layout.staticWidth = .ok (some n))
    {v : s.Value} (ha : s.hasAbsent v = false) : s.showsAbsent v = false := by
  rw [Bool.eq_false_iff]
  intro hshow
  have hsize := size_of_width h v
  rw [if_pos hshow] at hsize
  rw [hasAbsent_of_size hsize] at ha
  cases ha

/-- **Two ways to a size.** If the layout has a static width, that is the size of every value,
except where sizing comes across something absent. If the static width is refused, whatever for,
then so is the size of every value, one with empty runs too. -/
theorem size_of_staticWidth (s : Schema) (v : s.Value) :
    (∀ n, s.layout.staticWidth = .ok (some n) →
        s.size v = (if s.showsAbsent v then .error .noValue else .ok n) ∧
          (s.hasAbsent v = false → s.size v = .ok n)) ∧
      (∀ e, s.layout.staticWidth = .error e → ∃ e', s.size v = .error e') ∧
      ∀ n, s.size v = .ok n →
        s.layout.staticWidth = .ok none ∨ s.layout.staticWidth = .ok (some n) := by
  refine ⟨?_, ?_, ?_⟩
  · intro n hn
    refine ⟨size_of_width hn v, ?_⟩
    intro ha
    rw [size_of_width hn v, showsAbsent_eq_false hn ha, if_neg Bool.false_ne_true]
  · intro e he
    cases hsize : s.size v with
    | error e' => exact ⟨e', rfl⟩
    | ok n =>
      obtain ⟨w, hw, -⟩ := staticWidth_of_size s v n hsize
      rw [hw] at he
      cases he
  · intro n hn
    obtain ⟨w, hw, rfl | rfl⟩ := staticWidth_of_size s v n hn
    · exact .inl hw
    · exact .inr hw

/-- A record of fixed width, with a value that may be absent and a blank field. -/
def reading : Schema :=
  .record "Reading" (.named "level" (.optional (.scalar .uint16)) (.blank (.scalar .uint8) .nil))

def readingOf (level : Option (Word 2)) : reading.Value := (level, ())

/-- A reading has its width for a size, or none without its level. A run of integers of machine
width has no size even if it is empty. -/
theorem size_reading :
    reading.size (readingOf (some 5)) = .ok 3 ∧ reading.size (readingOf none) = .error .noValue ∧
      ∃ e, (run .growable (.machine .signed)).size ⟨[], trivial⟩ = .error e := by
  have hpresent := (size_of_staticWidth reading (readingOf (some 5))).1 3 rfl
  have habsent := (size_of_staticWidth reading (readingOf none)).1 3 rfl
  have hempty := (size_of_staticWidth (run .growable (.machine .signed)) ⟨[], trivial⟩).2.1 _ rfl
  exact ⟨hpresent.2 rfl, habsent.1, hempty⟩

/-! ## Sizes and totals -/

theorem size_lt_bound {s : Schema} {v : s.Value} {n : Nat} (h : s.size v = .ok n) :
    n < Size.bound := by
  obtain ⟨w, hw, -⟩ := staticWidth_of_size s v n h
  have hout := size_outcome s w hw v
  rw [h] at hout
  cases hout with
  | measured _ fits => exact fits

mutual

/-- A static width is reported for each blank field, and for the elements of each run whose form is
`asked` about. Sizing relies on such a width alone for the elements of sequences and of zero-length
arrays, the forms that `Fits 0`, and for blanks. Nothing needs to be asked of an array with
elements, since no array is narrower than one of them. -/
def Measurable (asked : RunForm → Prop) : Schema → Prop
  | run form element =>
    (asked form → ∃ w, element.layout.staticWidth = .ok w) ∧ element.Measurable asked
  | record _ fields => fields.Measurable asked
  | ref _ target => target.Measurable asked
  | optional target => target.Measurable asked
  | scalar _ | complex _ | machine _ => True

def Fields.Measurable (asked : RunForm → Prop) : Fields → Prop
  | .nil => True
  | .named _ schema rest => schema.Measurable asked ∧ rest.Measurable asked
  | .blank schema rest => (∃ w, schema.layout.staticWidth = .ok w) ∧ rest.Measurable asked

end

theorem total_of_staticWidth {s : Schema} {v : s.Value} {n : Nat}
    (h : s.layout.staticWidth = .ok (some n)) (ha : s.hasAbsent v = false) :
    n = Piece.total (s.pieces v) := by
  obtain ⟨hf, rfl⟩ := Layout.isFixed_of_staticWidth h
  exact ((within_extent s v hf).2 ha).symm

theorem total_le_total_flatMap {α : Type} {pieces : α → List Piece} {x : α} {xs : List α}
    (h : x ∈ xs) : Piece.total (pieces x) ≤ Piece.total (xs.flatMap pieces) := by
  obtain ⟨before, behind, rfl⟩ := List.append_of_mem h
  rw [List.flatMap_append, List.flatMap_cons, Piece.total_append, Piece.total_append]
  omega

theorem staticWidth_run (form : RunForm) (element : Schema) {xs : (run form element).Value}
    {w : Option Nat} (hw : element.layout.staticWidth = .ok w)
    (ha : (run form element).hasAbsent xs = false)
    (ht : Piece.total ((run form element).pieces xs) < Size.bound) :
    ∃ w, (run form element).layout.staticWidth = .ok w := by
  cases form with
  | growable => exact ⟨none, by rw [layout, Layout.staticWidth, hw]; rfl⟩
  | view => exact ⟨none, by rw [layout, Layout.staticWidth, hw]; rfl⟩
  | fixed length =>
    rw [layout, Layout.staticWidth, hw]
    cases w with
    | none => exact ⟨none, rfl⟩
    | some width =>
      obtain ⟨hf, rfl⟩ := Layout.isFixed_of_staticWidth hw
      have htotal : Piece.total ((run (.fixed length) element).pieces xs) =
          element.layout.extent * length := (within_extent _ xs hf).2 ha
      have hmul : Size.mul element.layout.extent length = .ok _ :=
        Size.mul_eq_ok_iff.2 ⟨by omega, rfl⟩
      exact ⟨some (element.layout.extent * length), by simp [bind, Except.bind, hmul]; rfl⟩

theorem addWidths_of_total {total width : Option Nat} {part rest : Nat}
    (hw : ∀ b ∈ width, b = part) (ht : ∀ a ∈ total, a + (part + rest) < Size.bound) :
    ∃ sum, Layout.addWidths total width = .ok sum ∧ ∀ a ∈ sum, a + rest < Size.bound := by
  unfold Layout.addWidths
  split
  · rename_i a b
    have hb := hw b rfl
    have ha := ht a rfl
    have hadd : Size.add a b = .ok (a + b) := Size.add_eq_ok_iff.2 ⟨by omega, rfl⟩
    refine ⟨some (a + b), by rw [hadd]; rfl, ?_⟩
    intro sum hsum
    cases hsum
    omega
  · exact ⟨none, rfl, nofun⟩

theorem staticWidth_cons {label : Option String} {layout : Layout} {rest : Layout.Fields}
    {total width : Option Nat} {part behind : Nat} (hw : layout.staticWidth = .ok width)
    (hb : (label.isNone && width.isNone) = false) (hpart : ∀ b ∈ width, b = part)
    (ht : ∀ a ∈ total, a + (part + behind) < Size.bound)
    (hrest : ∀ sum : Option Nat, (∀ a ∈ sum, a + behind < Size.bound) →
      ∃ w, rest.staticWidth sum = .ok w) :
    ∃ w, (Layout.Fields.cons label layout rest).staticWidth total = .ok w := by
  obtain ⟨sum, hsum, hroom⟩ := addWidths_of_total hpart ht
  have heq : (Layout.Fields.cons label layout rest).staticWidth total = rest.staticWidth sum := by
    rw [Layout.Fields.staticWidth, hw]
    simp only [bind, Except.bind, hb, hsum]
    rfl
  rw [heq]
  exact hrest sum hroom

theorem staticWidth_target {target : Layout} (hd : (Layout.pointer target).defects = [])
    (h : target.defects = [] → ∃ w, target.staticWidth = .ok w) :
    ∃ w, (Layout.pointer target).staticWidth = .ok w := by
  obtain ⟨hp, hd⟩ := Layout.defects_pointer_eq_nil_iff.1 hd
  rw [Layout.staticWidth, hp]
  exact h hd

mutual

theorem staticWidth_of_total : (s : Schema) → s.layout.defects = [] → s.Measurable (·.Fits 0) →
    (v : s.Value) → s.hasAbsent v = false → Piece.total (s.pieces v) < Size.bound →
    ∃ w, s.layout.staticWidth = .ok w
  | scalar kind, _, _, _, _, _ => ⟨_, rfl⟩
  | complex precision, _, _, _, _, _ => ⟨_, rfl⟩
  | machine _, hd, _, _, _, _ => by cases hd
  | run form element, hd, hm, ⟨[], hfits⟩, ha, ht => by
    obtain ⟨w, hw⟩ := hm.1 hfits
    exact staticWidth_run form element hw ha ht
  -- The first element is as wide as its layout, so the width of the layout fits with it.
  | run form element, hd, hm, ⟨x :: xs, hfits⟩, ha, ht => by
    rw [defects_run] at hd
    obtain ⟨hx, -⟩ := Bool.or_eq_false_iff.1 ha
    have hle : Piece.total (element.pieces x) ≤ Piece.total ((x :: xs).flatMap element.pieces) :=
      total_le_total_flatMap List.mem_cons_self
    obtain ⟨w, hw⟩ := staticWidth_of_total element hd hm.2 x hx (Nat.lt_of_le_of_lt hle ht)
    exact staticWidth_run form element hw ha ht
  | record _ fields, hd, hm, values, ha, ht =>
    Fields.staticWidth_of_total fields hd hm values ha ht (some 0) fun a ha => by
      cases ha
      rw [Nat.zero_add]
      exact ht
  | ref _ target, hd, hm, v, ha, ht =>
    staticWidth_target hd fun hd => staticWidth_of_total target hd hm v ha ht
  | optional _, _, _, none, ha, _ => by cases ha
  | optional target, hd, hm, some v, ha, ht =>
    staticWidth_target hd fun hd => staticWidth_of_total target hd hm v ha ht

/-- The width of the fields so far, if they all have one, leaves room for the pieces to come. -/
theorem Fields.staticWidth_of_total : (fields : Fields) → fields.layout.defects = [] →
    fields.Measurable (·.Fits 0) → (values : fields.Values) → fields.hasAbsent values = false →
    Piece.total (fields.pieces values) < Size.bound → (acc : Option Nat) →
    (∀ a ∈ acc, a + Piece.total (fields.pieces values) < Size.bound) →
    ∃ w, fields.layout.staticWidth acc = .ok w
  | .nil, _, _, _, _, _, acc, _ => ⟨acc, rfl⟩
  | .named label schema rest, hd, hm, values, ha, ht, acc, hacc => by
    obtain ⟨hd, hdr⟩ := List.append_eq_nil_iff.1 hd
    obtain ⟨ha, har⟩ := Bool.or_eq_false_iff.1 ha
    rw [Fields.pieces, Piece.total_append] at ht hacc
    obtain ⟨w, hw⟩ := Schema.staticWidth_of_total schema hd hm.1 values.1 ha (by omega)
    have hpart : ∀ b ∈ w, b = Piece.total (schema.pieces values.1) := fun b hb => by
      cases hb
      exact total_of_staticWidth hw ha
    exact staticWidth_cons hw rfl hpart hacc
      (Fields.staticWidth_of_total rest hdr hm.2 values.2 har (by omega))
  | .blank schema rest, hd, hm, values, ha, ht, acc, hacc => by
    obtain ⟨-, hd⟩ := List.append_eq_nil_iff.1 hd
    obtain ⟨hb, hdr⟩ := List.append_eq_nil_iff.1 hd
    obtain ⟨w, hw⟩ := hm.1
    have hwidth : w = some schema.layout.extent := by
      rw [Layout.staticWidth_eq _ _ hw, if_pos (Layout.blankDefects_eq_nil_iff.1 hb)]
    rw [hwidth] at hw
    rw [Fields.pieces, Piece.total_cons] at ht hacc
    have hpart : ∀ b ∈ some schema.layout.extent, b = schema.layout.extent := fun b hb => by
      cases hb
      rfl
    exact staticWidth_cons hw rfl hpart hacc
      (Fields.staticWidth_of_total rest hdr hm.2 values ha (by omega))

end

theorem size_of_large {s : Schema} {v : s.Value} (ha : s.hasAbsent v = false)
    (hd : s.layout.defects = []) (large : Size.bound ≤ Piece.total (s.pieces v)) :
    s.size v = .error Size.overflow := by
  have hi := inspection_size s v
  rw [hd, ha] at hi
  cases hsize : s.size v with
  | ok n =>
    have hn := size_eq_total s v n hsize ha
    have hlt := size_lt_bound hsize
    omega
  | error e =>
    rw [hsize] at hi
    cases hi with
    | named first _ => cases first
    | absent met => cases met
    | overflow => rfl

theorem size_of_total_lt {s : Schema} {v : s.Value} {w : Option Nat}
    (hw : s.layout.staticWidth = .ok w) (ha : s.hasAbsent v = false)
    (fits : Piece.total (s.pieces v) < Size.bound) :
    s.size v = .ok (Piece.total (s.pieces v)) := by
  have hout := size_outcome s w hw v
  rw [← (within_span s v).2 ha] at hout
  generalize hsize : s.size v = answer at hout
  cases hout with
  | measured _ _ => rfl
  | overflow large => omega
  | refused _ =>
    rw [hasAbsent_of_size hsize] at ha
    cases ha

theorem size_of_fitting {s : Schema} {v : s.Value} (ha : s.hasAbsent v = false)
    (hd : s.layout.defects = []) (hm : s.Measurable (·.Fits 0))
    (fits : Piece.total (s.pieces v) < Size.bound) :
    s.size v = .ok (Piece.total (s.pieces v)) := by
  obtain ⟨w, hw⟩ := staticWidth_of_total s hd hm v ha fits
  exact size_of_total_lt hw ha fits

/-- **Sizes never wrap.** Where nothing is absent, a size that is reported is the total of the
pieces, over unbounded numbers. Without defects, a total of 64 bits and more is refused as the
largest size there is, and a smaller one is reported, unless sizing relies on the width of a layout
that does not fit itself: of a blank field, or of the elements of a sequence or of an array that has
none. -/
theorem size_eq_total_or_overflow (s : Schema) (v : s.Value) (ha : s.hasAbsent v = false) :
    (∀ n, s.size v = .ok n → n = Piece.total (s.pieces v)) ∧
      (s.layout.defects = [] → Size.bound ≤ Piece.total (s.pieces v) →
        s.size v = .error (.oversizedValue 18446744073709551615)) ∧
      (s.layout.defects = [] → Piece.total (s.pieces v) < Size.bound →
        s.Measurable (·.Fits 0) → s.size v = .ok (Piece.total (s.pieces v))) :=
  ⟨fun n hn => size_eq_total s v n hn ha, fun hd large => size_of_large ha hd large,
    fun hd fits hm => size_of_fitting ha hd hm fits⟩

/-- A record that is nothing but padding, half of all sizes wide. -/
def half : Schema :=
  .record "Half" (.blank (.run (.fixed 9223372036854775808) (.scalar .uint8)) .nil)

/-- A sequence of halves. -/
def halves : Schema := .run .growable half

def halvesOf (count : Nat) : halves.Value := ⟨List.replicate count (), trivial⟩

/-- One half has a size, two have none. -/
theorem size_halves :
    halves.size (halvesOf 1) = .ok 9223372036854775808 ∧
      halves.size (halvesOf 2) = .error (.oversizedValue 18446744073709551615) := by
  have hone := (size_eq_total_or_overflow halves (halvesOf 1) rfl).2.2 rfl (by decide)
    ⟨fun _ => ⟨_, rfl⟩, ⟨_, rfl⟩, trivial⟩
  have htwo := (size_eq_total_or_overflow halves (halvesOf 2) rfl).2.1 rfl (by decide)
  exact ⟨hone, htwo⟩

/-- An array of pairs of halves, which has no pairs. -/
def noPairs : Schema := .run (.fixed 0) (.run (.fixed 2) half)

def noPairsOf : noPairs.Value := ⟨[], rfl⟩

/-- The elements of an array that has none must be asked about, too. In an array of no pairs there
is no sequence at all, and its blank field has a width; but a pair of halves has none that fits, so
the array is refused, though there is nothing in it to encode. -/
theorem size_noPairs :
    noPairs.hasAbsent noPairsOf = false ∧ noPairs.layout.defects = [] ∧
      noPairs.Measurable (fun form => form = .growable ∨ form = .view) ∧
      Piece.total (noPairs.pieces noPairsOf) = 0 ∧
      noPairs.size noPairsOf = .error (.oversizedValue 18446744073709551615) := by
  refine ⟨rfl, rfl, ?_, rfl, rfl⟩
  refine ⟨?_, ?_, ⟨_, rfl⟩, trivial⟩
  · rintro (h | h) <;> cases h
  · rintro (h | h) <;> cases h

end Schema

end ByteExact
