import ByteExact.Config
import ByteExact.Transfer
/-!
# Codec

A codec binds one valid configuration. Its operations are those on values with the configured
byte order, behind a limit: a value that encodes to more than `maxValueSize` bytes is refused
before any byte moves.

Results:
* `one_le_limit`, `limit_le`: every codec has a limit between one byte and one gigabyte.
-/
namespace ByteExact

/-- A configuration without problems. -/
structure Codec where
  config : Config
  valid : config.problems = []

namespace Codec

/-- A codec from a configuration, unless that has problems (`new`). -/
def ofConfig (config : Config) : Except Error Codec :=
  match h : config.validate with
  | .ok () => .ok ⟨config, Config.validate_eq_ok_iff.1 h⟩
  | .error e => .error e

/-- The codec of the standard configuration with another byte order (`with_byte_order`). -/
def ofByteOrder (order : ByteOrder) : Codec :=
  ⟨Config.withOverrides (some order) none, rfl⟩

instance : Inhabited Codec := ⟨⟨.standard, rfl⟩⟩

def byteOrder (codec : Codec) : ByteOrder := codec.config.byteOrder

/-- The size of a value, if it is within the limit (`size`). -/
def size (codec : Codec) (s : Schema) (v : s.Value) : Except Error Nat := do
  let n ← s.size v
  if codec.config.maxValueSize < n then .error (.oversizedValue n) else return n

/-- Encode a value within the limit into bytes (`to_bytes`). -/
def toBytes (codec : Codec) (s : Schema) (v : s.Value) : Except Error (List UInt8) := do
  let _ ← codec.size s v
  s.toBytes codec.byteOrder v

/-- Write a value within the limit to a sink (`write`). -/
def write {σ : Type} [Sink σ] (codec : Codec) (s : Schema) (v : s.Value) (sink : σ) :
    Attempt σ Unit :=
  .guarded (codec.size s v) sink fun _ => s.write codec.byteOrder v sink

/-- Fill a target within the limit from bytes (`from_bytes`). -/
def fromBytes (codec : Codec) (s : Schema) (data : List UInt8) (target : s.Value) :
    Attempt s.Value Nat :=
  .guarded (codec.size s target) target fun _ => s.fromBytes codec.byteOrder data target

/-- Fill a target within the limit from a source (`read`). -/
def read {σ : Type} [Source σ] (codec : Codec) (s : Schema) (source : σ) (target : s.Value) :
    Attempt (s.Value × σ) Unit :=
  .guarded (codec.size s target) (target, source) fun _ =>
    s.read codec.byteOrder source target

theorem one_le_limit (codec : Codec) : 1 ≤ codec.config.maxValueSize :=
  (codec.config.problems_eq_nil_iff.1 codec.valid).1

theorem limit_le (codec : Codec) : codec.config.maxValueSize ≤ Config.limit :=
  (codec.config.problems_eq_nil_iff.1 codec.valid).2

end Codec

end ByteExact
