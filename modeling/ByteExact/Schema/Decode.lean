import ByteExact.Decoder
import ByteExact.Schema.Size
/-!
# Decoding values

`Schema.decode` fills a target in place from a decoder, in the order in which its parts are
encoded. The target decides what is read: a run keeps its length and an absent value cannot be
filled, nor can a value behind a shared reference. A failure leaves the parts before it filled and
the parts after it as they were.

Results:
* `length_decodeRun`: a run keeps its length, whether or not decoding it succeeds.
-/
namespace ByteExact.Schema

/-- Fill elements one after another, up to the first that fails (`decode_slice`, where a type does
not replace it). -/
def decodeEach {α : Type} (decode : α → Decoder → Attempt (α × Decoder) Unit) :
    List α → Decoder → Attempt (List α × Decoder) Unit
  | [], d => .done () ([], d)
  | x :: xs, d =>
    let first := decode x d
    match first.result with
    | .ok _ =>
      (decodeEach decode xs first.state.2).mapState fun (ys, d) => (first.state.1 :: ys, d)
    | .error e => .fail e (first.state.1 :: xs, first.state.2)

/-- Fill a run of elements: numbers in bulk, all of them or none; everything else one by one
(`decode_slice`). -/
def decodeRun : (element : Schema) →
    (element.Value → Decoder → Attempt (element.Value × Decoder) Unit) →
    List element.Value → Decoder → Attempt (List element.Value × Decoder) Unit
  | scalar kind, _, xs, d => d.fillWords kind.width xs
  | _, decode, xs, d => decodeEach decode xs d

theorem length_decodeEach {α : Type} (decode : α → Decoder → Attempt (α × Decoder) Unit)
    (xs : List α) (d : Decoder) : (decodeEach decode xs d).state.1.length = xs.length := by
  induction xs generalizing d with
  | nil => rfl
  | cons x xs ih =>
    rw [decodeEach]
    dsimp only
    split
    · simp [ih]
    · rfl

theorem length_decodeRun (element : Schema)
    (decode : element.Value → Decoder → Attempt (element.Value × Decoder) Unit)
    (xs : List element.Value) (d : Decoder) :
    (decodeRun element decode xs d).state.1.length = xs.length := by
  cases element with
  | scalar kind => exact Decoder.length_fillWords d kind.width xs
  | _ => exact length_decodeEach decode xs d

/-- Fill both parts of a complex number, the real part first. -/
def decodeComplex (w : Nat) (v : Word w × Word w) (d : Decoder) :
    Attempt ((Word w × Word w) × Decoder) Unit :=
  let re := d.fillWord w v.1
  match re.result with
  | .ok _ =>
    (re.state.2.fillWord w v.2).mapState fun (im, d) => ((re.state.1, im), d)
  | .error e => .fail e ((re.state.1, v.2), re.state.2)

mutual

/-- Fill a target in place (`decode`). -/
def decode : (s : Schema) → s.Value → Decoder → Attempt (s.Value × Decoder) Unit
  | scalar kind, v, d => d.fillWord kind.width v
  | complex precision, v, d => decodeComplex precision.width v d
  | machine kind, v, d => .fail (.unsupportedType kind.name) (v, d)
  | run _ element, xs, d =>
    let filled := decodeRun element element.decode xs.val d
    let elements := ⟨filled.state.1, (length_decodeRun ..).symm ▸ xs.property⟩
    ⟨filled.result, (elements, filled.state.2)⟩
  | record _ fields, values, d => fields.decode values d
  | ref form target, v, d =>
    if form.isWritable then
      .guarded (checkTarget target) (v, d) fun _ => target.decode v d
    else .fail .notWritable (v, d)
  | optional target, v, d =>
    .guarded (checkTarget target) (v, d) fun _ =>
      match v with
      | some v => (target.decode v d).mapState fun (v, d) => (some v, d)
      | none => .fail .noValue (none, d)

/-- Fill fields in order, skipping the blank ones. -/
def Fields.decode : (fields : Fields) → fields.Values → Decoder →
    Attempt (fields.Values × Decoder) Unit
  | .nil, values, d => .done () (values, d)
  | .named _ schema rest, values, d =>
    let first := schema.decode values.1 d
    match first.result with
    | .ok _ =>
      (rest.decode values.2 first.state.2).mapState fun (others, d) =>
        ((first.state.1, others), d)
    | .error e => .fail e ((first.state.1, values.2), first.state.2)
  | .blank schema rest, values, d =>
    .guarded schema.layout.blankWidth (values, d) fun width =>
      let skipped := d.skip width
      match skipped.result with
      | .ok _ => rest.decode values skipped.state
      | .error e => .fail e (values, skipped.state)

end

end ByteExact.Schema
