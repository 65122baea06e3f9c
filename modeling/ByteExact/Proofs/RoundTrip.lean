import ByteExact.Proofs.Encoding
import ByteExact.Proofs.Outcome
/-!
# There and back

Encoding and decoding walk the same pieces. Bytes of a value fill a target of its shape with that
value, and bytes that fill a target come back from it with zeros in the blank places.

Results:
* `fromBytes_toBytes_append`: decoding what was encoded gives the value, bit for bit.
* `toBytes_of_fromBytes`: encoding what was decoded gives the bytes, with blanks cleared.
-/
namespace ByteExact.Schema

/-! ## Schemas without shared references -/

mutual

/-- Whether no value of the schema has anything behind a shared reference. A blank field has no
value, whatever its layout. -/
def ownsAll : Schema → Bool
  | scalar _ => true
  | complex _ => true
  | machine _ => true
  | run _ element => element.ownsAll
  | record _ fields => fields.ownsAll
  | ref form target => form.isWritable && target.ownsAll
  | optional target => target.ownsAll

def Fields.ownsAll : Fields → Bool
  | .nil => true
  | .named _ schema rest => schema.ownsAll && rest.ownsAll
  | .blank _ rest => rest.ownsAll

end

theorem isWritable_of_ownsAll : (s : Schema) → s.ownsAll = true → s.isWritable = true
  | scalar _, _ => rfl
  | complex _, _ => rfl
  | machine _, _ => rfl
  | run _ _, _ => rfl
  | record _ _, _ => rfl
  | ref form target, h => by
    obtain ⟨hform, htarget⟩ := (Bool.and_eq_true _ _).mp h
    rw [isWritable, hform, isWritable_of_ownsAll target htarget]
    rfl
  | optional target, h => isWritable_of_ownsAll target h

mutual

theorem holdsShared_of_ownsAll : (s : Schema) → s.ownsAll = true → (v : s.Value) →
    s.holdsShared v = false
  | scalar _, _, _ => rfl
  | complex _, _, _ => rfl
  | machine _, _, _ => rfl
  | run _ element, h, xs =>
    List.any_eq_false.2 fun x _ => Bool.eq_false_iff.1 (holdsShared_of_ownsAll element h x)
  | record _ fields, h, values => Fields.holdsShared_of_ownsAll fields h values
  | ref form target, h, v => by
    obtain ⟨hform, htarget⟩ := (Bool.and_eq_true _ _).mp h
    rw [holdsShared, holdsShared_of_ownsAll target htarget v]
    cases form with
    | shared => cases hform
    | exclusive => rfl
    | owned => rfl
  | optional _, _, none => rfl
  | optional target, h, some v => holdsShared_of_ownsAll target h v

theorem Fields.holdsShared_of_ownsAll : (fields : Fields) → fields.ownsAll = true →
    (values : fields.Values) → fields.holdsShared values = false
  | .nil, _, _ => rfl
  | .named _ schema rest, h, values => by
    obtain ⟨hschema, hrest⟩ := (Bool.and_eq_true _ _).mp h
    rw [Fields.holdsShared, Schema.holdsShared_of_ownsAll schema hschema values.1,
      Fields.holdsShared_of_ownsAll rest hrest values.2]
    rfl
  | .blank _ rest, h, values => Fields.holdsShared_of_ownsAll rest h values

end

/-! ## Schemas without blank fields -/

mutual

/-- Whether a record of the schema, at any depth, has a blank field. -/
def hasBlank : Schema → Bool
  | scalar _ => false
  | complex _ => false
  | machine _ => false
  | run _ element => element.hasBlank
  | record _ fields => fields.hasBlank
  | ref _ target => target.hasBlank
  | optional target => target.hasBlank

def Fields.hasBlank : Fields → Bool
  | .nil => false
  | .named _ schema rest => schema.hasBlank || rest.hasBlank
  | .blank _ _ => true

end

mutual

theorem isPadding_of_mem_pieces : (s : Schema) → s.hasBlank = false → (v : s.Value) →
    ∀ p ∈ s.pieces v, p.isPadding = false
  | scalar _, _, _, p, hp => by
    cases List.mem_singleton.1 hp
    rfl
  | complex _, _, _, p, hp => by
    rcases List.mem_cons.1 hp with rfl | hp
    · rfl
    · cases List.mem_singleton.1 hp
      rfl
  | machine _, _, _, p, hp => by cases hp
  | run _ element, h, xs, p, hp => by
    obtain ⟨x, -, hx⟩ := List.mem_flatMap.1 hp
    exact isPadding_of_mem_pieces element h x p hx
  | record _ fields, h, values, p, hp => Fields.isPadding_of_mem_pieces fields h values p hp
  | ref _ target, h, v, p, hp => isPadding_of_mem_pieces target h v p hp
  | optional _, _, none, p, hp => by cases hp
  | optional target, h, some v, p, hp => isPadding_of_mem_pieces target h v p hp

theorem Fields.isPadding_of_mem_pieces : (fields : Fields) → fields.hasBlank = false →
    (values : fields.Values) → ∀ p ∈ fields.pieces values, p.isPadding = false
  | .nil, _, _, p, hp => by cases hp
  | .named _ schema rest, h, values, p, hp => by
    obtain ⟨hschema, hrest⟩ := Bool.or_eq_false_iff.1 h
    rcases List.mem_append.1 hp with hp | hp
    · exact Schema.isPadding_of_mem_pieces schema hschema values.1 p hp
    · exact Fields.isPadding_of_mem_pieces rest hrest values.2 p hp
  | .blank _ _, h, _, _, _ => by cases h

end

/-! ## Values, bytes, values -/

theorem of_toBytes {s : Schema} {order : ByteOrder} {v : s.Value} {bs : List UInt8}
    (h : s.toBytes order v = .ok bs) :
    s.size v = .ok bs.length ∧ s.hasAbsent v = false ∧
      bs = (s.pieces v).flatMap (Piece.bytes order) := by
  cases hn : s.size v with
  | error e =>
    rw [toBytes, hn] at h
    cases h
  | ok n =>
    rw [toBytes_of_size order hn] at h
    cases ha : s.hasAbsent v with
    | true =>
      rw [ha] at h
      cases h
    | false =>
      rw [ha] at h
      cases h
      rw [Piece.length_flatMap_bytes, size_eq_total s v n hn ha]
      exact ⟨rfl, rfl, rfl⟩

/-- **The round trip.** The bytes of a value, with anything behind them, fill a target of the same
shape with that value, whatever numbers the target had. -/
theorem fromBytes_toBytes_append (order : ByteOrder) (s : Schema) (v t : s.Value)
    (bs rest : List UInt8) (hs : s.ownsAll = true) (hv : s.toBytes order v = .ok bs)
    (ht : s.SameShape v t) : s.fromBytes order (bs ++ rest) t = .done bs.length v := by
  obtain ⟨hn, ha, hbs⟩ := of_toBytes hv
  have hnt : s.size t = .ok bs.length := by rw [← size_eq_of_sameShape s v t ht, hn]
  have hat : s.hasAbsent t = false := by rw [← hasAbsent_eq_of_sameShape s v t ht, ha]
  have hle : bs.length ≤ (bs ++ rest).length := by
    rw [List.length_append]
    omega
  obtain ⟨t', hdone, hfilled⟩ := fromBytes_of_size order (isWritable_of_ownsAll s hs) hat
    (holdsShared_of_ownsAll s hs t) hnt hle
  have hshape := sameShape_trans s v t t' ht hfilled.sameShape
  -- The pieces of `t` are of the kinds of those of `v`, so they take the bytes apart in its way.
  have hpieces : s.pieces t' = s.pieces v := by
    have halike := (alike_pieces s v t ht).imp fun _ _ h => h.symm
    have hrefill := Piece.refill_bytes order halike.flip []
    rw [List.append_nil, ← hbs] at hrefill
    rw [hfilled.pieces_eq, List.take_left, hrefill]
  rw [hdone, eq_of_pieces_eq s (admissible_of_size hn) v t' hshape hpieces.symm]

/-- A shipment comes back from its bytes, with two more behind them. -/
theorem fromBytes_toBytes_shipment :
    shipment.toBytes .little (shipmentOf 0xFFFE 7 (some 0x01020304)) =
        .ok [0xFE, 0xFF, 0, 0, 7, 0, 0, 4, 3, 2, 1] ∧
      shipment.fromBytes .little ([0xFE, 0xFF, 0, 0, 7, 0, 0, 4, 3, 2, 1] ++ [9, 9])
        (shipmentOf 1 2 (some 3)) = .done 11 (shipmentOf 0xFFFE 7 (some 0x01020304)) :=
  ⟨rfl, fromBytes_toBytes_append .little shipment _ (shipmentOf 1 2 (some 3)) _ [9, 9] rfl rfl
    ⟨trivial, .cons ⟨trivial, trivial, trivial⟩ .nil, trivial⟩⟩

/-! ## Bytes, values, bytes -/

/-- **The canonical form.** What was decoded from `n` bytes encodes to `n` bytes: those it was
decoded from with every byte of a blank field cleared, or just those if there are no blank
fields. -/
theorem toBytes_of_fromBytes (order : ByteOrder) (s : Schema) (data : List UInt8) (t t' : s.Value)
    (n : Nat) (h : s.fromBytes order data t = .done n t') :
    s.toBytes order t' = .ok (Piece.canonical (s.pieces t) (data.take n)) ∧
      (Piece.canonical (s.pieces t) (data.take n)).length = n ∧
      (s.hasBlank = false → s.toBytes order t' = .ok (data.take n)) := by
  have hfilled := filled_of_fromBytes h
  obtain ⟨htarget, hle, hr, -⟩ := fromBytes_eq_done_iff.1 h
  have hn := (targetSize_eq_ok_iff.1 htarget).2
  have ha := hasAbsent_of_decode s t _ hr
  have htotal : n = Piece.total (s.pieces t) := size_eq_total s t n hn ha
  have hlength : (data.take n).length = n := List.length_take_of_le hle
  have hbytes : s.toBytes order t' = .ok (Piece.canonical (s.pieces t) (data.take n)) := by
    rw [size_eq_of_sameShape s t t' hfilled.sameShape] at hn
    rw [hasAbsent_eq_of_sameShape s t t' hfilled.sameShape] at ha
    rw [toBytes_of_size order hn, ha, if_neg Bool.false_ne_true, hfilled.pieces_eq,
      Piece.bytes_refill order _ _ (by omega)]
  refine ⟨hbytes, ?_, ?_⟩
  · rw [Piece.length_canonical, hlength, ← htotal, Nat.min_self]
  · intro hblank
    rw [hbytes, Piece.canonical_of_isPadding (isPadding_of_mem_pieces s hblank t) (by omega)]

/-- The blank bytes of a shipment may hold anything and come back as zeros. -/
theorem toBytes_fromBytes_shipment :
    shipment.fromBytes .big [0xFF, 0xFE, 8, 8, 7, 8, 8, 1, 2, 3, 4, 9] (shipmentOf 0 0 (some 0)) =
        .done 11 (shipmentOf 0xFFFE 7 (some 0x01020304)) ∧
      shipment.toBytes .big (shipmentOf 0xFFFE 7 (some 0x01020304)) =
        .ok [0xFF, 0xFE, 0, 0, 7, 0, 0, 1, 2, 3, 4] :=
  ⟨rfl, (toBytes_of_fromBytes .big shipment [0xFF, 0xFE, 8, 8, 7, 8, 8, 1, 2, 3, 4, 9]
    (shipmentOf 0 0 (some 0)) _ 11 rfl).1⟩

end ByteExact.Schema
