import ByteExact.Config
import ByteExact.Toml.Backend
/-!
# Configurations as TOML

A configuration has two entries, `byte_order` and `max_value_size`, and an order is written by its
name. Reading accepts other spellings of an order, too; a missing key has its standard value, and
other keys are ignored. How text becomes entries, and entries text, is up to a `Toml.Backend`, which
may refuse either.
-/
namespace ByteExact.Config

def byteOrderKey : String := "byte_order"

def maxValueSizeKey : String := "max_value_size"

/-- The byte order that a keyword of a configuration names. Case matters here. -/
def orderOfKeyword? (keyword : String) : Option ByteOrder :=
  if keyword ∈ [ByteOrder.big.name, "big", "big-endian", "big_endian"] then some .big
  else if keyword ∈ [ByteOrder.little.name, "little", "little-endian", "little_endian"] then
    some .little
  else none

/-- The byte order of a document, or the standard one if it has none. -/
def byteOrder? (entries : Toml.Entries) : Option ByteOrder :=
  match entries.lookup byteOrderKey with
  | none => some standard.byteOrder
  | some (.text keyword) => orderOfKeyword? keyword
  | some _ => none

/-- The largest value size of a document, or the standard one if it has none. -/
def maxValueSize? (entries : Toml.Entries) : Option Nat :=
  match entries.lookup maxValueSizeKey with
  | none => some standard.maxValueSize
  | some (.integer n) => if 0 ≤ n then some n.toNat else none
  | some _ => none

/-- The configuration in the entries of a document. -/
def ofEntries? (entries : Toml.Entries) : Option Config := do
  return ⟨← byteOrder? entries, ← maxValueSize? entries⟩

/-- Read a configuration from a TOML document (`from_toml`). -/
def ofToml (toml : Toml.Backend) (text : String) : Except Error Config :=
  match (toml.read? text).bind ofEntries? with
  | some config => .ok config
  | none => .error (.config .cannotParse)

/-- The entries of a configuration, in the order in which they are written. -/
def entries (config : Config) : Toml.Entries :=
  [(byteOrderKey, .text config.byteOrder.name), (maxValueSizeKey, .integer config.maxValueSize)]

/-- Write a configuration as a TOML document. -/
def toToml (toml : Toml.Backend) (config : Config) : Except Error String :=
  match toml.print? config.entries with
  | some text => .ok text
  | none => .error (.config .cannotSerialize)

/-- The text of an example document, which holds the standard configuration (`example_config`). -/
def exampleToml (toml : Toml.Backend) : String :=
  (toml.print? standard.entries).getD "# Failed to generate example config"

end ByteExact.Config
