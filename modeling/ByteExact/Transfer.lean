import ByteExact.Schema.Decode
import ByteExact.Schema.Encode
import ByteExact.Stream.Sink
import ByteExact.Stream.Source
/-!
# Transfer of values

The four ways to move a value: to bytes, to a sink, from bytes, and from a source. Each sizes the
value first, so that an unsupported type and an absent value are refused before a byte moves. An
encoding reaches the sink as one whole; reading takes exactly as many bytes as the target needs
before the target is touched.

Left out: memory. The buffers for a value are made as large as its size says, which can fail where
the machine has too little of it; here there is always enough.
-/
namespace ByteExact.Schema

/-- Encode a value into bytes (`to_bytes`). -/
def toBytes (order : ByteOrder) (s : Schema) (v : s.Value) : Except Error (List UInt8) := do
  let _ ← s.size v
  let attempt := s.encode v (.empty order)
  let _ ← attempt.result
  return attempt.state.bytes

/-- Encode a value and write all of it to a sink (`write`). Nothing is written if the value is
refused. -/
def write {σ : Type} [Sink σ] (order : ByteOrder) (s : Schema) (v : s.Value) (sink : σ) :
    Attempt σ Unit :=
  .guarded (s.toBytes order v) sink fun bs => Sink.writeAll sink bs

/-- The size of a target, if it can be decoded into. -/
def targetSize (s : Schema) (target : s.Value) : Except Error Nat :=
  if s.isWritable then s.size target else .error .notWritable

/-- Fill a target from the first bytes of `data`, and give how many were used (`from_bytes`).
Trailing bytes are ignored; too few are a short read, which leaves the target unchanged. -/
def fromBytes (order : ByteOrder) (s : Schema) (data : List UInt8) (target : s.Value) :
    Attempt s.Value Nat :=
  .guarded (s.targetSize target) target fun size =>
    if data.length < size then .fail (.shortRead size data.length) target
    else
      (s.decode target ⟨order, data.take size⟩).andThen (fun _ state => .done size state)
        |>.mapState Prod.fst

/-- Read exactly the bytes that a target needs from a source, and fill it from them (`read`). -/
def read {σ : Type} [Source σ] (order : ByteOrder) (s : Schema) (source : σ) (target : s.Value) :
    Attempt (s.Value × σ) Unit :=
  .guarded (s.targetSize target) (target, source) fun size =>
    ((Source.readExact source size).mapState fun source => (target, source)).andThen
      fun data (target, source) =>
        ((s.fromBytes order data target).mapState fun target => (target, source)).andThen
          fun _ state => .done () state

end ByteExact.Schema
