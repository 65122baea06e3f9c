import ByteExact.Proofs.Total
import ByteExact.Transfer
/-!
# Encodings and pieces

An encoder that is given a value appends the bytes of the value's pieces one after another. It
stops short of a piece only with an error, and for an admissible schema the one error there can be
is that of an absent value.

Results:
* `encodeRun_eq_encodeEach`: writing numbers in bulk is writing them one by one.
* `writes_encode`: encoding appends pieces in order, all of them if it succeeds.
* `result_encode`: over an admissible schema, encoding fails exactly if something is absent.
* `toBytes_eq_flatMap_pieces`: the bytes of a value with a size are those of its pieces.
-/
namespace ByteExact

/-- What writing pieces comes to: the encoder takes the bytes of one after another, up to the end
or to an error. -/
inductive Writes : Encoder → List Piece → Except Error Unit → Encoder → Prop
  | done (enc : Encoder) : Writes enc [] (.ok ()) enc
  | stop (enc : Encoder) (ps : List Piece) (e : Error) : Writes enc ps (.error e) enc
  | next {enc enc' : Encoder} {p : Piece} {ps : List Piece} {result : Except Error Unit}
      (rest : Writes (enc.putBytes (p.bytes enc.order)) ps result enc') :
      Writes enc (p :: ps) result enc'

theorem Writes.of_bytes {enc : Encoder} {p : Piece} {bs : List UInt8}
    (h : p.bytes enc.order = bs) : Writes enc [p] (.ok ()) (enc.putBytes bs) :=
  h ▸ .next (.done _)

theorem Writes.append {enc enc₁ enc₂ : Encoder} {ps qs : List Piece} {result : Except Error Unit}
    (h₁ : Writes enc ps (.ok ()) enc₁) (h₂ : Writes enc₁ qs result enc₂) :
    Writes enc (ps ++ qs) result enc₂ := by
  generalize hr : (Except.ok () : Except Error Unit) = ok at h₁
  induction h₁ with
  | done enc => exact h₂
  | stop enc ps e => cases hr
  | next _ ih => exact .next (ih h₂ hr)

theorem Writes.append_error {enc enc₁ : Encoder} {ps : List Piece} {e : Error}
    (h : Writes enc ps (.error e) enc₁) (qs : List Piece) :
    Writes enc (ps ++ qs) (.error e) enc₁ := by
  generalize hr : (Except.error e : Except Error Unit) = result at h
  induction h with
  | done enc => cases hr
  | stop enc ps e' =>
    cases hr
    exact .stop enc _ e
  | next _ ih => exact .next (ih hr)

/-- An attempt at one part of a value, and after it at the rest. -/
theorem Writes.andThen {enc : Encoder} {ps qs : List Piece} {a : Attempt Encoder Unit}
    {next : Encoder → Attempt Encoder Unit} (h₁ : Writes enc ps a.result a.state)
    (h₂ : ∀ enc, Writes enc qs (next enc).result (next enc).state) :
    Writes enc (ps ++ qs) (a.andThen fun _ enc => next enc).result
      (a.andThen fun _ enc => next enc).state := by
  obtain ⟨result, enc₁⟩ := a
  cases result with
  | error e => exact h₁.append_error qs
  | ok u => exact h₁.append (h₂ enc₁)

theorem Writes.state_eq {enc enc' : Encoder} {ps : List Piece} (h : Writes enc ps (.ok ()) enc') :
    enc' = enc.putBytes (ps.flatMap (Piece.bytes enc.order)) := by
  generalize hr : (Except.ok () : Except Error Unit) = ok at h
  induction h with
  | done enc => simp [Encoder.putBytes]
  | stop enc ps e => cases hr
  | next _ ih =>
    rw [ih hr]
    simp [Encoder.putBytes]

namespace Schema

theorem foldl_putWord (kind : Scalar) (xs : List (Word kind.width)) (enc : Encoder) :
    Attempt.done () (xs.foldl (fun e x => e.putWord kind.width x) enc) =
      encodeEach (encode (.scalar kind)) xs enc := by
  induction xs generalizing enc with
  | nil => rfl
  | cons x xs ih => exact ih (enc.putWord kind.width x)

theorem encodeRun_eq_encodeEach (element : Schema) (xs : List element.Value) (enc : Encoder) :
    encodeRun element element.encode xs enc = encodeEach element.encode xs enc := by
  cases element with
  | scalar kind =>
    have hbulk := congrArg (Attempt.done ()) (Encoder.putWords_eq_foldl enc kind.width xs)
    exact hbulk.trans (foldl_putWord kind xs enc)
  | _ => rfl

/-! ## Encoding appends pieces -/

theorem writes_encodeEach {α : Type} {encode : α → Encoder → Attempt Encoder Unit}
    {pieces : α → List Piece}
    (h : ∀ x enc, Writes enc (pieces x) (encode x enc).result (encode x enc).state)
    (xs : List α) (enc : Encoder) :
    Writes enc (xs.flatMap pieces) (encodeEach encode xs enc).result
      (encodeEach encode xs enc).state := by
  induction xs generalizing enc with
  | nil => exact .done enc
  | cons x xs ih => exact (h x enc).andThen ih

theorem writes_putWord (enc : Encoder) (kind : Scalar) (v : Word kind.width) :
    Writes enc [.number kind v] (.ok ()) (enc.putWord kind.width v) :=
  .of_bytes (Piece.bytes_number enc.order kind v)

mutual

theorem writes_encode : (s : Schema) → (v : s.Value) → (enc : Encoder) →
    Writes enc (s.pieces v) (s.encode v enc).result (s.encode v enc).state
  | scalar kind, v, enc => writes_putWord enc kind v
  | complex precision, v, enc =>
    (writes_putWord enc precision.part v.1).append (writes_putWord _ precision.part v.2)
  | machine _, _, enc => .stop enc [] _
  | run form element, xs, enc => by
    show Writes enc _ (encodeRun element element.encode xs.val enc).result
      (encodeRun element element.encode xs.val enc).state
    rw [encodeRun_eq_encodeEach]
    exact writes_encodeEach (writes_encode element) xs.val enc
  | record _ fields, values, enc => Fields.writes_encode fields values enc
  | ref _ target, v, enc => by
    rw [encode, pieces]
    cases checkTarget target with
    | error e => exact .stop enc _ e
    | ok u => exact writes_encode target v enc
  | optional target, none, enc => by
    rw [encode]
    cases checkTarget target with
    | error e => exact .stop enc _ e
    | ok u => exact .stop enc _ .noValue
  | optional target, some v, enc => by
    rw [encode, pieces]
    cases checkTarget target with
    | error e => exact .stop enc _ e
    | ok u => exact writes_encode target v enc

theorem Fields.writes_encode : (fields : Fields) → (values : fields.Values) → (enc : Encoder) →
    Writes enc (fields.pieces values) (fields.encode values enc).result
      (fields.encode values enc).state
  | .nil, _, enc => .done enc
  | .named _ schema rest, values, enc =>
    (Schema.writes_encode schema values.1 enc).andThen (Fields.writes_encode rest values.2)
  | .blank schema rest, values, enc => by
    rw [Fields.encode]
    cases hb : schema.layout.blankWidth with
    | error e => exact .stop enc _ e
    | ok width =>
      rw [(Layout.blankWidth_eq hb).2.2]
      exact .next (Fields.writes_encode rest values _)

end

/-! ## Encoding fails for an absent value only -/

theorem result_andThen {a : Attempt Encoder Unit} {next : Encoder → Attempt Encoder Unit}
    {b c : Bool} (h₁ : a.result = if b then .error .noValue else .ok ())
    (h₂ : ∀ enc, (next enc).result = if c then .error .noValue else .ok ()) :
    (a.andThen fun _ enc => next enc).result = if b || c then .error .noValue else .ok () := by
  obtain ⟨result, enc⟩ := a
  cases b with
  | true =>
    cases h₁
    rfl
  | false =>
    cases h₁
    exact h₂ enc

theorem result_encodeEach {α : Type} {encode : α → Encoder → Attempt Encoder Unit}
    {absent : α → Bool}
    (h : ∀ x enc, (encode x enc).result = if absent x then .error .noValue else .ok ())
    (xs : List α) (enc : Encoder) :
    (encodeEach encode xs enc).result = if xs.any absent then .error .noValue else .ok () := by
  induction xs generalizing enc with
  | nil => rfl
  | cons x xs ih => exact result_andThen (h x enc) ih

mutual

theorem result_encode : (s : Schema) → s.Admissible → (v : s.Value) → (enc : Encoder) →
    (s.encode v enc).result = if s.hasAbsent v then .error .noValue else .ok ()
  | scalar _, _, _, _ => rfl
  | complex _, _, _, _ => rfl
  | machine _, hs, _, _ => hs.elim
  | run form element, hs, xs, enc => by
    show (encodeRun element element.encode xs.val enc).result = _
    rw [encodeRun_eq_encodeEach]
    exact result_encodeEach (result_encode element hs) xs.val enc
  | record _ fields, hs, values, enc => Fields.result_encode fields hs values enc
  | ref _ target, hs, v, enc => by
    rw [encode, hs.1]
    exact result_encode target hs.2 v enc
  | optional target, hs, none, enc => by
    rw [encode, hs.1]
    rfl
  | optional target, hs, some v, enc => by
    rw [encode, hs.1]
    exact result_encode target hs.2 v enc

theorem Fields.result_encode : (fields : Fields) → fields.Admissible → (values : fields.Values) →
    (enc : Encoder) →
    (fields.encode values enc).result = if fields.hasAbsent values then .error .noValue else .ok ()
  | .nil, _, _, _ => rfl
  | .named _ schema rest, hs, values, enc =>
    result_andThen (Schema.result_encode schema hs.1 values.1 enc)
      (Fields.result_encode rest hs.2 values.2)
  | .blank schema rest, hs, values, enc => by
    rw [Fields.encode, hs.1]
    exact Fields.result_encode rest hs.2 values _

end

/-! ## The bytes of a value -/

theorem toBytes_of_size {s : Schema} {v : s.Value} {n : Nat} (order : ByteOrder)
    (hn : s.size v = .ok n) :
    s.toBytes order v =
      if s.hasAbsent v then .error .noValue
      else .ok ((s.pieces v).flatMap (Piece.bytes order)) := by
  have hr := result_encode s (admissible_of_size hn) v (.empty order)
  have hw := writes_encode s v (.empty order)
  rw [toBytes, hn]
  cases ha : s.hasAbsent v with
  | true =>
    rw [ha, if_pos rfl] at hr
    simp [bind, Except.bind, hr]
  | false =>
    rw [ha, if_neg Bool.false_ne_true] at hr
    rw [hr] at hw
    simp only [bind, Except.bind, pure, Except.pure, hr, hw.state_eq]
    rfl

mutual

theorem staticWidth_of_mem_pieces : (s : Schema) → s.Admissible → (v : s.Value) →
    ∀ {layout : Layout}, .padding layout ∈ s.pieces v →
    layout.staticWidth = .ok (some layout.extent)
  | scalar _, _, _, _, h => by simp [pieces] at h
  | complex _, _, _, _, h => by simp [pieces] at h
  | machine _, _, _, _, h => by cases h
  | run _ element, hs, xs, _, h => by
    obtain ⟨x, -, hx⟩ := List.mem_flatMap.1 h
    exact staticWidth_of_mem_pieces element hs x hx
  | record _ fields, hs, values, _, h => Fields.staticWidth_of_mem_pieces fields hs values h
  | ref _ target, hs, v, _, h => staticWidth_of_mem_pieces target hs.2 v h
  | optional target, _, none, _, h => by cases h
  | optional target, hs, some v, _, h => staticWidth_of_mem_pieces target hs.2 v h

theorem Fields.staticWidth_of_mem_pieces : (fields : Fields) → fields.Admissible →
    (values : fields.Values) → ∀ {layout : Layout}, .padding layout ∈ fields.pieces values →
    layout.staticWidth = .ok (some layout.extent)
  | .nil, _, _, _, h => by cases h
  | .named _ schema rest, hs, values, _, h => by
    rcases List.mem_append.1 h with h | h
    · exact Schema.staticWidth_of_mem_pieces schema hs.1 values.1 h
    · exact Fields.staticWidth_of_mem_pieces rest hs.2 values.2 h
  | .blank schema rest, hs, values, _, h => by
    rcases List.mem_cons.1 h with h | h
    · cases h
      exact (Layout.blankWidth_eq hs.1).1
    · exact Fields.staticWidth_of_mem_pieces rest hs.2 values h

end

/-- **The format.** A value with a size encodes to the bytes of its pieces back to back, each blank
field being as many zeros as its layout is wide, unless something in it is absent. No schema is
left out: one with a part that has no encoding gives no value a size (`admissible_of_size`). -/
theorem toBytes_eq_flatMap_pieces (order : ByteOrder) (s : Schema) (v : s.Value) (n : Nat)
    (hn : s.size v = .ok n) :
    (s.hasAbsent v = false → s.toBytes order v = .ok ((s.pieces v).flatMap (Piece.bytes order))) ∧
      (s.hasAbsent v = true → s.toBytes order v = .error .noValue) ∧
      ∀ layout, .padding layout ∈ s.pieces v → layout.staticWidth = .ok (some layout.extent) := by
  have hb := toBytes_of_size order hn
  refine ⟨?_, ?_, ?_⟩
  · intro ha
    rw [hb, ha, if_neg Bool.false_ne_true]
  · intro ha
    rw [hb, ha, if_pos rfl]
  · intro layout hl
    exact staticWidth_of_mem_pieces s (admissible_of_size hn) v hl

/-- A record with a blank field and a run of boxed records that have one too. -/
def shipment : Schema :=
  .record "Shipment" (.named "id" (.scalar .int16) (.blank (.run (.fixed 2) (.scalar .uint8))
    (.named "items" (.run .growable (.ref .owned (.record "Item"
      (.named "kind" (.scalar .uint8) (.blank (.scalar .uint16)
        (.named "weight" (.optional (.scalar .int32)) .nil)))))) .nil)))

/-- A shipment of one item. -/
def shipmentOf (id : Word 2) (kind : Word 1) (weight : Option (Word 4)) : shipment.Value :=
  (id, ⟨[(kind, weight, ())], trivial⟩, ())

/-- The width of an item is known without a look at it, so an absent weight has a size and is found
by the encoder. -/
theorem toBytes_shipment :
    shipment.size (shipmentOf 0xFFFE 7 (some 0x01020304)) = .ok 11 ∧
      shipment.toBytes .big (shipmentOf 0xFFFE 7 (some 0x01020304)) =
        .ok [0xFF, 0xFE, 0, 0, 7, 0, 0, 1, 2, 3, 4] ∧
      shipment.size (shipmentOf 0xFFFE 7 none) = .ok 11 ∧
      shipment.toBytes .big (shipmentOf 0xFFFE 7 none) = .error .noValue :=
  ⟨rfl, (toBytes_eq_flatMap_pieces .big shipment _ 11 rfl).1 rfl, rfl,
    (toBytes_eq_flatMap_pieces .big shipment _ 11 rfl).2.1 rfl⟩

end Schema

end ByteExact
