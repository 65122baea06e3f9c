import ByteExact.Config
/-!
# Configurations from the environment

Two environment variables override the standard configuration, each on its own. A variable that is
not set leaves its setting alone, and so does one whose bytes are no UTF-8 text. A text that does
not spell a setting is an error; the byte order is looked at first.
-/
namespace ByteExact.Config

/-- The bytes of each environment variable that is set. -/
abbrev Environment := String → Option ByteArray

/-- The text of a variable, if it is set to one. -/
def Environment.text? (env : Environment) (name : String) : Option String :=
  (env name).bind String.fromUTF8?

/-- The byte order that the environment asks for. -/
def Environment.byteOrder (env : Environment) : Except Error ByteOrder :=
  match env.text? byteOrderVariable with
  | none => .ok standard.byteOrder
  | some text =>
    match ByteOrder.ofText text with
    | .ok order => .ok order
    | .error cause => .error (.config (.badByteOrder cause))

/-- The largest value size that the environment asks for. -/
def Environment.maxValueSize (env : Environment) : Except Error Nat :=
  match env.text? maxValueSizeVariable with
  | none => .ok standard.maxValueSize
  | some text =>
    match Numeral.ofText text with
    | .ok n => .ok n
    | .error cause => .error (.config (.badMaxValueSize cause))

/-- The configuration that the environment asks for (`from_env`). -/
def ofEnvironment (env : Environment) : Except Error Config := do
  let byteOrder ← env.byteOrder
  let maxValueSize ← env.maxValueSize
  return { byteOrder, maxValueSize }

end ByteExact.Config
