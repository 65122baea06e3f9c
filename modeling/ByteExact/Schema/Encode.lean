import ByteExact.Attempt
import ByteExact.Encoder
import ByteExact.Schema.Size
/-!
# Encoding values

`Schema.encode` appends a value to an encoder: each number in the encoder's byte order, a complex
number as its real and then its imaginary part, elements and fields back to back, a blank field as
zeros, and a reference as the value it leads to. A failure leaves what was appended before it.
-/
namespace ByteExact.Schema

/-- Encode elements one after another, up to the first that fails (`encode_slice`, where a type does
not replace it). -/
def encodeEach {α : Type} (encode : α → Encoder → Attempt Encoder Unit) :
    List α → Encoder → Attempt Encoder Unit
  | [], enc => .done () enc
  | x :: xs, enc => (encode x enc).andThen fun _ enc => encodeEach encode xs enc

/-- Encode a run of elements: numbers in bulk, everything else one by one (`encode_slice`). -/
def encodeRun : (element : Schema) → (element.Value → Encoder → Attempt Encoder Unit) →
    List element.Value → Encoder → Attempt Encoder Unit
  | scalar kind, _, xs, enc => .done () (enc.putWords kind.width xs)
  | _, encode, xs, enc => encodeEach encode xs enc

mutual

/-- Append the encoding of a value (`encode`). -/
def encode : (s : Schema) → s.Value → Encoder → Attempt Encoder Unit
  | scalar kind, v, enc => .done () (enc.putWord kind.width v)
  | complex precision, v, enc =>
    .done () ((enc.putWord precision.width v.1).putWord precision.width v.2)
  | machine kind, _, enc => .fail (.unsupportedType kind.name) enc
  | run _ element, xs, enc => encodeRun element element.encode xs.val enc
  | record _ fields, values, enc => fields.encode values enc
  | ref _ target, v, enc => .guarded (checkTarget target) enc fun _ => target.encode v enc
  | optional target, v, enc =>
    .guarded (checkTarget target) enc fun _ =>
      match v with
      | some v => target.encode v enc
      | none => .fail .noValue enc

/-- Append the encodings of fields in order. -/
def Fields.encode : (fields : Fields) → fields.Values → Encoder → Attempt Encoder Unit
  | .nil, _, enc => .done () enc
  | .named _ schema rest, values, enc =>
    (schema.encode values.1 enc).andThen fun _ enc => rest.encode values.2 enc
  | .blank schema rest, values, enc =>
    .guarded schema.layout.blankWidth enc fun width => rest.encode values (enc.putZeros width)

end

end ByteExact.Schema
