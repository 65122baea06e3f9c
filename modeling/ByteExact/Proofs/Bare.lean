import ByteExact.Proofs.Independence
import ByteExact.Proofs.Refusal
import ByteExact.Proofs.RoundTrip
import ByteExact.Proofs.Sizing
/-!
# Bare values

References, boxes and the mark of presence add nothing to an encoding, nor does it matter to one
what fixes the length of a run. The bare form of a value has none of them: every reference in it is
replaced by what it leads to and every run by a sequence that owns its elements. A blank field keeps
its layout, which is all there is of it.

A schema and its bare form go through different code: an array of boxes is measured by its layout
and walked box by box, a sequence of numbers is summed up or moved in bulk. What ties them together
is that a value and its bare form have the same pieces, and that what sizing needs of the layouts
carries over.

Results:
* `pieces_unwrap`: a value and its bare form have the same pieces.
* `staticWidth_bare`: a layout with a static width keeps one without wrappers, or varies.
* `size_unwrap`, `toBytes_unwrap`: a bare form has the size and the bytes of the value.
* `unwrap_of_fromBytes`: a target and its bare form are filled alike.
-/
namespace ByteExact.Schema

mutual

/-- The schema without references and with nothing but sequences for runs, blank fields apart. -/
def bare : Schema → Schema
  | scalar kind => scalar kind
  | complex precision => complex precision
  | machine kind => machine kind
  | run _ element => run .growable element.bare
  | record name fields => record name fields.bare
  | ref _ target => target.bare
  | optional target => target.bare

def Fields.bare : Fields → Fields
  | .nil => .nil
  | .named label schema rest => .named label schema.bare rest.bare
  | .blank schema rest => .blank schema rest.bare

end

theorem eq_false_of_any {α : Type} {p : α → Bool} {xs : List α} (h : xs.any p = false) :
    ∀ x ∈ xs, p x = false :=
  fun x hx => Bool.eq_false_iff.2 (List.any_eq_false.1 h x hx)

mutual

/-- The value without its wrappers. Nothing can be absent from a bare value. -/
def unwrap : (s : Schema) → (v : s.Value) → s.hasAbsent v = false → s.bare.Value
  | scalar _, v, _ => v
  | complex _, v, _ => v
  | machine _, v, _ => v
  | run _ element, xs, ha => ⟨xs.val.pmap element.unwrap (eq_false_of_any ha), trivial⟩
  | record _ fields, values, ha => fields.unwrap values ha
  | ref _ target, v, ha => target.unwrap v ha
  | optional target, some v, ha => target.unwrap v ha
  | optional _, none, ha => nomatch ha

def Fields.unwrap : (fields : Fields) → (values : fields.Values) →
    fields.hasAbsent values = false → fields.bare.Values
  | .nil, _, _ => ()
  | .named _ schema rest, values, ha =>
    (schema.unwrap values.1 (Bool.or_eq_false_iff.1 ha).1,
      rest.unwrap values.2 (Bool.or_eq_false_iff.1 ha).2)
  | .blank _ rest, values, ha => rest.unwrap values ha

end

/-! ## Bare schemas -/

mutual

theorem ownsAll_bare : (s : Schema) → s.bare.ownsAll = true
  | scalar _ => rfl
  | complex _ => rfl
  | machine _ => rfl
  | run _ element => ownsAll_bare element
  | record _ fields => Fields.ownsAll_bare fields
  | ref _ target => ownsAll_bare target
  | optional target => ownsAll_bare target

theorem Fields.ownsAll_bare : (fields : Fields) → fields.bare.ownsAll = true
  | .nil => rfl
  | .named _ schema rest => by
    rw [Fields.bare, Fields.ownsAll, Schema.ownsAll_bare schema, Fields.ownsAll_bare rest]
    rfl
  | .blank _ rest => Fields.ownsAll_bare rest

end

mutual

theorem hasAbsent_bare : (s : Schema) → (w : s.bare.Value) → s.bare.hasAbsent w = false
  | scalar _, _ => rfl
  | complex _, _ => rfl
  | machine _, _ => rfl
  | run _ element, _ =>
    List.any_eq_false.2 fun x _ => Bool.eq_false_iff.1 (hasAbsent_bare element x)
  | record _ fields, values => Fields.hasAbsent_bare fields values
  | ref _ target, w => hasAbsent_bare target w
  | optional target, w => hasAbsent_bare target w

theorem Fields.hasAbsent_bare : (fields : Fields) → (values : fields.bare.Values) →
    fields.bare.hasAbsent values = false
  | .nil, _ => rfl
  | .named _ schema rest, values =>
    Bool.or_eq_false_iff.2
      ⟨Schema.hasAbsent_bare schema values.1, Fields.hasAbsent_bare rest values.2⟩
  | .blank _ rest, values => Fields.hasAbsent_bare rest values

end

/-! ## Static widths -/

/-- What is known of a width is as much as in `w`, or nothing. -/
def Coarser (w' w : Option Nat) : Prop := w' = none ∨ w' = w

theorem addWidths_coarser {total total' width width' w : Option Nat} (ht : Coarser total' total)
    (hw : Coarser width' width) (h : Layout.addWidths total width = .ok w) :
    ∃ w', Layout.addWidths total' width' = .ok w' ∧ Coarser w' w := by
  rcases ht with rfl | rfl
  · exact ⟨none, rfl, .inl rfl⟩
  · rcases hw with rfl | rfl
    · exact ⟨none, by cases total' <;> rfl, .inl rfl⟩
    · exact ⟨w, h, .inr rfl⟩

mutual

theorem staticWidth_bare : (s : Schema) → {w : Option Nat} → s.layout.staticWidth = .ok w →
    ∃ w', s.bare.layout.staticWidth = .ok w' ∧ Coarser w' w
  | scalar _, w, h => ⟨w, h, .inr rfl⟩
  | complex _, w, h => ⟨w, h, .inr rfl⟩
  | machine _, w, h => ⟨w, h, .inr rfl⟩
  | run form element, w, h => by
    obtain ⟨width, hwidth⟩ := staticWidth_of_run form h
    obtain ⟨width', hwidth', -⟩ := staticWidth_bare element hwidth
    exact ⟨none, bind_eq_ok_iff.2 ⟨width', hwidth', rfl⟩, .inl rfl⟩
  | record _ fields, w, h => Fields.staticWidth_bare fields h (.inr rfl)
  | ref _ target, w, h => staticWidth_bare target (staticWidth_pointer h).2
  | optional target, w, h => staticWidth_bare target (staticWidth_pointer h).2

theorem Fields.staticWidth_bare : (fields : Fields) → {total total' w : Option Nat} →
    fields.layout.staticWidth total = .ok w → Coarser total' total →
    ∃ w', fields.bare.layout.staticWidth total' = .ok w' ∧ Coarser w' w
  | .nil, total, total', w, h, ht => by
    cases h
    exact ⟨total', rfl, ht⟩
  | .named _ schema rest, total, total', w, h, ht => by
    obtain ⟨width, hwidth, h⟩ := bind_eq_ok_iff.1 h
    obtain ⟨sum, hsum, h⟩ := bind_eq_ok_iff.1 h
    obtain ⟨width', hwidth', hw⟩ := Schema.staticWidth_bare schema hwidth
    obtain ⟨sum', hsum', hs⟩ := addWidths_coarser ht hw hsum
    obtain ⟨w', hw', hcoarser⟩ := Fields.staticWidth_bare rest h hs
    exact ⟨w', bind_eq_ok_iff.2 ⟨width', hwidth', bind_eq_ok_iff.2 ⟨sum', hsum', hw'⟩⟩, hcoarser⟩
  -- A blank field keeps its layout, and with it the width that it must have.
  | .blank schema rest, total, total', w, h, ht => by
    obtain ⟨width, hwidth, h⟩ := bind_eq_ok_iff.1 h
    cases width with
    | none => cases h
    | some n =>
      obtain ⟨sum, hsum, h⟩ := bind_eq_ok_iff.1 h
      obtain ⟨sum', hsum', hs⟩ := addWidths_coarser ht (.inr rfl) hsum
      obtain ⟨w', hw', hcoarser⟩ := Fields.staticWidth_bare rest h hs
      exact ⟨w', bind_eq_ok_iff.2 ⟨some n, hwidth, bind_eq_ok_iff.2 ⟨sum', hsum', hw'⟩⟩, hcoarser⟩

end

/-! ## Pieces and shapes -/

theorem flatMap_pmap {α β γ : Type} {P : α → Prop} {f : (x : α) → P x → β} {g : β → List γ}
    {g' : α → List γ} (h : ∀ x hx, g (f x hx) = g' x) (xs : List α) (hxs : ∀ x ∈ xs, P x) :
    (xs.pmap f hxs).flatMap g = xs.flatMap g' := by
  induction xs with
  | nil => rfl
  | cons x xs ih => rw [List.pmap_cons, List.flatMap_cons, List.flatMap_cons, h, ih]

mutual

theorem pieces_unwrap : (s : Schema) → (v : s.Value) → (ha : s.hasAbsent v = false) →
    s.bare.pieces (s.unwrap v ha) = s.pieces v
  | scalar _, _, _ => rfl
  | complex _, _, _ => rfl
  | machine _, _, _ => rfl
  | run _ element, xs, ha => flatMap_pmap (pieces_unwrap element) xs.val (eq_false_of_any ha)
  | record _ fields, values, ha => Fields.pieces_unwrap fields values ha
  | ref _ target, v, ha => pieces_unwrap target v ha
  | optional target, some v, ha => pieces_unwrap target v ha
  | optional _, none, ha => nomatch ha

theorem Fields.pieces_unwrap : (fields : Fields) → (values : fields.Values) →
    (ha : fields.hasAbsent values = false) →
    fields.bare.pieces (fields.unwrap values ha) = fields.pieces values
  | .nil, _, _ => rfl
  | .named _ schema rest, values, ha => by
    obtain ⟨hschema, hrest⟩ := Bool.or_eq_false_iff.1 ha
    exact congrArg₂ (· ++ ·) (Schema.pieces_unwrap schema values.1 hschema)
      (Fields.pieces_unwrap rest values.2 hrest)
  | .blank schema rest, values, ha =>
    congrArg (List.cons (Piece.padding schema.layout)) (Fields.pieces_unwrap rest values ha)

end

theorem forall₂_pmap {α β : Type} {P : α → Prop} {R : α → α → Prop} {S : β → β → Prop}
    {f : (x : α) → P x → β} (h : ∀ x y, R x y → ∀ hx hy, S (f x hx) (f y hy)) {xs ys : List α}
    (hR : List.Forall₂ R xs ys) (hxs : ∀ x ∈ xs, P x) (hys : ∀ y ∈ ys, P y) :
    List.Forall₂ S (xs.pmap f hxs) (ys.pmap f hys) := by
  induction hR with
  | nil => exact .nil
  | cons hxy _ ih => exact .cons (h _ _ hxy _ _) (ih _ _)

mutual

theorem sameShape_unwrap : (s : Schema) → (a b : s.Value) → s.SameShape a b →
    ∀ ha hb, s.bare.SameShape (s.unwrap a ha) (s.unwrap b hb)
  | scalar _, _, _, _, _, _ => trivial
  | complex _, _, _, _, _, _ => trivial
  | machine _, _, _, _, _, _ => trivial
  | run _ element, _, _, h, ha, hb =>
    forall₂_pmap (sameShape_unwrap element) h (eq_false_of_any ha) (eq_false_of_any hb)
  | record _ fields, a, b, h, ha, hb => Fields.sameShape_unwrap fields a b h ha hb
  | ref _ target, a, b, h, ha, hb => sameShape_unwrap target a b h ha hb
  | optional target, some a, some b, h, ha, hb => sameShape_unwrap target a b h ha hb
  | optional _, none, _, _, ha, _ => nomatch ha
  | optional _, some _, none, h, _, _ => h.elim

theorem Fields.sameShape_unwrap : (fields : Fields) → (a b : fields.Values) →
    fields.SameShape a b →
    ∀ ha hb, fields.bare.SameShape (fields.unwrap a ha) (fields.unwrap b hb)
  | .nil, _, _, _, _, _ => trivial
  | .named _ schema rest, a, b, h, _, _ =>
    ⟨Schema.sameShape_unwrap schema a.1 b.1 h.1 _ _, Fields.sameShape_unwrap rest a.2 b.2 h.2 _ _⟩
  | .blank _ rest, a, b, h, ha, hb => Fields.sameShape_unwrap rest a b h ha hb

end

/-! ## Sizes and bytes -/

theorem size_unwrap {s : Schema} {v : s.Value} {n : Nat} (ha : s.hasAbsent v = false)
    (hn : s.size v = .ok n) : s.bare.size (s.unwrap v ha) = .ok n := by
  obtain ⟨w, hw, -⟩ := staticWidth_of_size s v n hn
  obtain ⟨w', hw', -⟩ := staticWidth_bare s hw
  have htotal : Piece.total (s.bare.pieces (s.unwrap v ha)) = n := by
    rw [pieces_unwrap, ← size_eq_total s v n hn ha]
  have hsize := size_of_total_lt hw' (hasAbsent_bare s (s.unwrap v ha))
  rw [htotal] at hsize
  exact hsize (size_lt_bound hn)

theorem toBytes_unwrap {s : Schema} {v : s.Value} {n : Nat} (order : ByteOrder)
    (ha : s.hasAbsent v = false) (hn : s.size v = .ok n) :
    s.bare.toBytes order (s.unwrap v ha) = s.toBytes order v := by
  rw [toBytes_of_size order (size_unwrap ha hn), toBytes_of_size order hn, hasAbsent_bare, ha,
    pieces_unwrap]

/-! ## Filling -/

/-- Shapes and pieces are all there is to a bare value, so it is filled in one way. -/
theorem unwrap_of_filled {s : Schema} {order : ByteOrder} {bs : List UInt8} {t t' : s.Value}
    {w : s.bare.Value} (hs : s.bare.Admissible) (ha : s.hasAbsent t = false)
    (ht : s.Filled order bs t t') (hw : s.bare.Filled order bs (s.unwrap t ha) w) :
    ∃ ha' : s.hasAbsent t' = false, s.unwrap t' ha' = w := by
  have ha' : s.hasAbsent t' = false := by
    rw [← hasAbsent_eq_of_sameShape s t t' ht.sameShape, ha]
  have hshape : s.bare.SameShape (s.unwrap t' ha') w :=
    sameShape_trans s.bare _ _ _
      (sameShape_unwrap s t' t (sameShape_symm s t t' ht.sameShape) ha' ha) hw.sameShape
  have hpieces : s.bare.pieces (s.unwrap t' ha') = s.bare.pieces w := by
    rw [hw.pieces_eq, pieces_unwrap, pieces_unwrap, ht.pieces_eq]
  exact ⟨ha', eq_of_pieces_eq s.bare hs _ _ hshape hpieces⟩

theorem unwrap_of_fromBytes {s : Schema} {v : s.Value} {n : Nat} (order : ByteOrder)
    (data : List UInt8) (ha : s.hasAbsent v = false) (hs : s.holdsShared v = false)
    (hn : s.size v = .ok n) :
    (s.bare.fromBytes order data (s.unwrap v ha)).result = (s.fromBytes order data v).result ∧
      ∃ ha' : s.hasAbsent (s.fromBytes order data v).state = false,
        s.unwrap (s.fromBytes order data v).state ha' =
          (s.bare.fromBytes order data (s.unwrap v ha)).state := by
  have hn' := size_unwrap ha hn
  have howned := ownsAll_bare s
  have htarget := targetSize_eq_ok_iff.2 ⟨isWritable_of_holdsShared hn hs, hn⟩
  have htarget' := targetSize_eq_ok_iff.2 ⟨isWritable_of_ownsAll s.bare howned, hn'⟩
  exact fromBytes_rel order data htarget htarget' ha (hasAbsent_bare s _) hs
    (holdsShared_of_ownsAll s.bare howned _) ⟨ha, rfl⟩
    fun _ _ _ => unwrap_of_filled (admissible_of_size hn') ha

/-- **Wrappers are transparent.** A value with a size and nothing absent has a bare form of the same
size and the same bytes. If nothing in it is shared either, decoding into it and into its bare form
gives the same result, and leaves a value and its bare form. -/
theorem unwrap_transparent (s : Schema) (v : s.Value) (n : Nat) (ha : s.hasAbsent v = false)
    (hn : s.size v = .ok n) :
    s.bare.size (s.unwrap v ha) = .ok n ∧
      (∀ order, s.bare.toBytes order (s.unwrap v ha) = s.toBytes order v) ∧
      (s.holdsShared v = false → ∀ order data,
        (s.bare.fromBytes order data (s.unwrap v ha)).result = (s.fromBytes order data v).result ∧
          ∃ ha' : s.hasAbsent (s.fromBytes order data v).state = false,
            s.unwrap (s.fromBytes order data v).state ha' =
              (s.bare.fromBytes order data (s.unwrap v ha)).state) :=
  ⟨size_unwrap ha hn, fun order => toBytes_unwrap order ha hn,
    fun hs order data => unwrap_of_fromBytes order data ha hs hn⟩

/-- A record of wrapped numbers around a blank field, which has a wrapper of its own. -/
def album : Schema :=
  .record "Album" (.named "year" (.ref .exclusive (.scalar .uint16))
    (.blank (.optional (.scalar .uint8))
      (.named "tracks" (.run (.fixed 2) (.ref .owned (.scalar .uint16))) .nil)))

def albumOf (year first second : Word 2) : album.Value := (year, ⟨[first, second], rfl⟩, ())

def bareAlbumOf (year first second : Word 2) : album.bare.Value :=
  (year, ⟨[first, second], trivial⟩, ())

/-- The array of boxes becomes a sequence of numbers; the blank field stays. -/
theorem unwrap_album :
    album.bare = .record "Album" (.named "year" (.scalar .uint16)
        (.blank (.optional (.scalar .uint8))
          (.named "tracks" (.run .growable (.scalar .uint16)) .nil))) ∧
      album.bare.size (bareAlbumOf 0x07CF 3 4) = .ok 7 ∧
      album.bare.toBytes .big (bareAlbumOf 0x07CF 3 4) = .ok [7, 0xCF, 0, 0, 3, 0, 4] ∧
      album.bare.fromBytes .big [1, 2, 9, 3, 4, 5, 6, 7] (bareAlbumOf 0x07CF 3 4) =
        .done 7 (bareAlbumOf 0x0102 0x0304 0x0506) := by
  have h := unwrap_transparent album (albumOf 0x07CF 3 4) 7 rfl rfl
  obtain ⟨hresult, _, hstate⟩ := h.2.2 rfl .big [1, 2, 9, 3, 4, 5, 6, 7]
  exact ⟨rfl, h.1, h.2.1 .big, congrArg₂ Attempt.mk hresult hstate.symm⟩

-- The size cannot be left out: a layout that is too wide is refused with nothing of it there.
example :
    let tooWide := run (.fixed 8) (.ref .owned (.run (.fixed 2305843009213693952) (.scalar .uint8)))
    (run .growable tooWide).size ⟨[], trivial⟩ = .error Size.overflow ∧
      (run .growable tooWide).bare.size ⟨[], trivial⟩ = .ok 0 :=
  ⟨rfl, rfl⟩

end ByteExact.Schema
