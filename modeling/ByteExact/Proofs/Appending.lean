import ByteExact.Proofs.Encoding
/-!
# Appending

An encoder is only ever added to, and what a value adds does not depend on what is there: the order
decides its bytes, and the earlier ones stay as they are. A value that cannot be encoded has the
first few of its pieces added, each whole.

Results:
* `addsOnly_encode`: encoding a value adds what it adds to an empty encoder.
* `Writes.exists_first`: writing pieces writes the first few of them.
* `encodeAll_eq_done_iff`: encoding values in a row adds their separate encodings.
* `encode_adds_first`: what one value adds, and what several do.
-/
namespace ByteExact

/-- Writing pieces writes the first few of them, and all of them if it succeeds. -/
theorem Writes.exists_first {enc enc' : Encoder} {ps : List Piece} {result : Except Error Unit}
    (h : Writes enc ps result enc') :
    ∃ k ≤ ps.length, enc' = enc.putBytes ((ps.take k).flatMap (Piece.bytes enc.order)) ∧
      (result = .ok () → k = ps.length) := by
  induction h with
  | done enc => exact ⟨0, Nat.le_refl 0, by simp [Encoder.putBytes], fun _ => rfl⟩
  | stop enc ps e =>
    refine ⟨0, Nat.zero_le _, by simp [Encoder.putBytes], ?_⟩
    intro hr
    cases hr
  | @next enc enc' p ps result _ ih =>
    obtain ⟨k, hk, henc', hall⟩ := ih
    refine ⟨k + 1, ?_, ?_, ?_⟩
    · rw [List.length_cons]
      omega
    · rw [henc']
      simp [Encoder.putBytes]
    · intro hr
      rw [hall hr, List.length_cons]

/-- A step that adds to an encoder what it adds to an empty one, and changes nothing else. -/
def AddsOnly (step : Encoder → Attempt Encoder Unit) : Prop :=
  ∀ enc, step enc = (step (.empty enc.order)).mapState fun added => enc.putBytes added.bytes

theorem addsOnly_done : AddsOnly (.done ()) := by
  intro enc
  show _ = Attempt.done () (enc.putBytes [])
  simp [Encoder.putBytes]

theorem addsOnly_fail (e : Error) : AddsOnly (.fail e) := by
  intro enc
  show _ = Attempt.fail e (enc.putBytes [])
  simp [Encoder.putBytes]

theorem addsOnly_putBytes (bs : ByteOrder → List UInt8) :
    AddsOnly fun enc => .done () (enc.putBytes (bs enc.order)) :=
  fun _ => rfl

theorem addsOnly_putWord (w : Nat) (v : Word w) :
    AddsOnly fun enc => .done () (enc.putWord w v) :=
  addsOnly_putBytes fun order => order.bytes w v.toNat

theorem AddsOnly.order_eq {step : Encoder → Attempt Encoder Unit} (h : AddsOnly step)
    (enc : Encoder) : (step enc).state.order = enc.order := by
  rw [h enc]
  rfl

theorem AddsOnly.andThen {step next : Encoder → Attempt Encoder Unit} (h₁ : AddsOnly step)
    (h₂ : AddsOnly next) : AddsOnly fun enc => (step enc).andThen fun _ enc => next enc := by
  intro enc
  have horder := h₁.order_eq (.empty enc.order)
  have hstep := h₁ enc
  dsimp only
  generalize step (.empty enc.order) = alone at horder hstep ⊢
  obtain ⟨result, added⟩ := alone
  rw [hstep]
  cases result with
  | error e => rfl
  | ok u =>
    show next (enc.putBytes added.bytes) = (next added).mapState _
    rw [h₂ (enc.putBytes added.bytes), h₂ added]
    dsimp only at horder
    rw [horder]
    simp [Attempt.mapState, Encoder.putBytes, Encoder.empty]

namespace Schema

/-! ## Encoding a value -/

theorem addsOnly_encodeEach {α : Type} {encode : α → Encoder → Attempt Encoder Unit}
    (h : ∀ x, AddsOnly (encode x)) (xs : List α) : AddsOnly (encodeEach encode xs) := by
  induction xs with
  | nil => exact addsOnly_done
  | cons x xs ih => exact (h x).andThen ih

theorem addsOnly_guarded {α : Type} (checked : Except Error α)
    {next : α → Encoder → Attempt Encoder Unit} (h : ∀ x, AddsOnly (next x)) :
    AddsOnly fun enc => .guarded checked enc fun x => next x enc := by
  cases checked with
  | error e => exact addsOnly_fail e
  | ok x => exact h x

mutual

theorem addsOnly_encode : (s : Schema) → (v : s.Value) → AddsOnly (s.encode v)
  | scalar kind, v => addsOnly_putWord kind.width v
  | complex precision, v =>
    (addsOnly_putWord precision.width v.1).andThen (addsOnly_putWord precision.width v.2)
  | machine kind, _ => addsOnly_fail (.unsupportedType kind.name)
  | run _ element, xs => by
    have hrun : encode (.run _ element) xs = encodeEach element.encode xs.val :=
      funext (encodeRun_eq_encodeEach element xs.val)
    rw [hrun]
    exact addsOnly_encodeEach (addsOnly_encode element) xs.val
  | record _ fields, values => Fields.addsOnly_encode fields values
  | ref _ target, v => addsOnly_guarded (checkTarget target) fun _ => addsOnly_encode target v
  | optional target, none =>
    addsOnly_guarded (checkTarget target) fun _ => addsOnly_fail .noValue
  | optional target, some v =>
    addsOnly_guarded (checkTarget target) fun _ => addsOnly_encode target v

theorem Fields.addsOnly_encode : (fields : Fields) → (values : fields.Values) →
    AddsOnly (fields.encode values)
  | .nil, _ => addsOnly_done
  | .named _ schema rest, values =>
    (Schema.addsOnly_encode schema values.1).andThen (Fields.addsOnly_encode rest values.2)
  | .blank schema rest, values =>
    addsOnly_guarded schema.layout.blankWidth fun width =>
      (addsOnly_putBytes fun _ => List.replicate width 0).andThen
        (Fields.addsOnly_encode rest values)

end

/-! ## Encoding values in a row -/

/-- Encode values of any schemas one after another, up to the first that fails. -/
def encodeAll (values : List ((s : Schema) × s.Value)) (enc : Encoder) : Attempt Encoder Unit :=
  encodeEach (fun value => value.1.encode value.2) values enc

/-- The attempt to encode a value on its own. -/
def alone (order : ByteOrder) (value : (s : Schema) × s.Value) : Attempt Encoder Unit :=
  value.1.encode value.2 (.empty order)

theorem encodeAll_eq_done_iff (values : List ((s : Schema) × s.Value)) (enc enc' : Encoder) :
    encodeAll values enc = .done () enc' ↔
      (∀ value ∈ values, (alone enc.order value).result = .ok ()) ∧
        enc' = enc.putBytes (values.flatMap fun value => (alone enc.order value).state.bytes) := by
  induction values generalizing enc with
  | nil =>
    show Attempt.done () enc = Attempt.done () enc' ↔ _
    simp [Attempt.done, Encoder.putBytes, eq_comm]
  | cons value values ih =>
    have hvalue : value.1.encode value.2 enc = _ := addsOnly_encode value.1 value.2 enc
    change value.1.encode value.2 enc = (alone enc.order value).mapState _ at hvalue
    rw [List.forall_mem_cons, List.flatMap_cons]
    show Attempt.andThen (value.1.encode value.2 enc) (fun _ enc => encodeAll values enc) = _ ↔ _
    rw [hvalue]
    generalize alone enc.order value = first
    obtain ⟨result, added⟩ := first
    cases result with
    | error e => simp [Attempt.mapState, Attempt.andThen, Attempt.fail, Attempt.done]
    | ok u =>
      show encodeAll values (enc.putBytes added.bytes) = _ ↔ _
      rw [ih]
      simp [Encoder.putBytes]

/-- **Adding only.** Whether or not a value can be encoded, the encoder keeps its order and every
byte it had, and gets the bytes of the first few pieces of the value: how many, and with which
result, is settled by the value and the order, and after a success it is all of them. Values encode
in a row just if each of them does on its own, and then their separate encodings are added. -/
theorem encode_adds_first (order : ByteOrder) :
    (∀ (s : Schema) (v : s.Value), ∃ result, ∃ k ≤ (s.pieces v).length,
      (result = .ok () → k = (s.pieces v).length) ∧
        ∀ earlier : List UInt8, s.encode v ⟨order, earlier⟩ =
          ⟨result, order, earlier ++ ((s.pieces v).take k).flatMap (Piece.bytes order)⟩) ∧
      ∀ (values : List ((s : Schema) × s.Value)) (earlier : List UInt8) (enc : Encoder),
        encodeAll values ⟨order, earlier⟩ = .done () enc ↔
          (∀ value ∈ values, (alone order value).result = .ok ()) ∧
            enc = ⟨order, earlier ++
              values.flatMap fun value => (alone order value).state.bytes⟩ := by
  refine ⟨?_, fun values earlier enc => encodeAll_eq_done_iff values ⟨order, earlier⟩ enc⟩
  intro s v
  obtain ⟨k, hk, hstate, hall⟩ := (writes_encode s v (.empty order)).exists_first
  refine ⟨(s.encode v (.empty order)).result, k, hk, hall, ?_⟩
  intro earlier
  rw [addsOnly_encode s v ⟨order, earlier⟩, Attempt.mapState, hstate]
  rfl

/-- A number of machine width ends an encoding behind the field before it. -/
example :
    encode (.record "Late" (.named "a" (.scalar .uint16) (.named "n" (.machine .unsigned) .nil)))
      ((0x0102, 3, ()) : Word 2 × Word 8 × Unit) ⟨.big, [9]⟩ =
        .fail (.unsupportedType "usize") ⟨.big, [9, 1, 2]⟩ := rfl

end Schema

end ByteExact
