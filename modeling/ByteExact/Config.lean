import ByteExact.Error
/-!
# Configuration

The settings of a codec: the byte order for every value, and the largest encoded size that it
accepts. `problems` lists what keeps a configuration from being used.
-/
namespace ByteExact

/-- The settings of a codec (`CodecConfig`). -/
structure Config where
  byteOrder : ByteOrder := .big
  /-- The largest encoded size, in bytes, accepted for one value (`MAX_VALUE_SIZE` if not set). -/
  maxValueSize : Nat := 16 * 1024 * 1024
  deriving DecidableEq, Repr

namespace Config

/-- The configuration in which every setting has its default value (`default`). -/
def standard : Config := {}

/-- The largest limit that can be configured (`MAX_VALUE_SIZE_LIMIT`). -/
def limit : Nat := 1024 * 1024 * 1024

/-- What keeps a configuration from being used, in the order in which it is reported
(`validate`). -/
def problems (config : Config) : List Problem :=
  if config.maxValueSize = 0 then [.zeroLimit]
  else if limit < config.maxValueSize then [.limitTooLarge config.maxValueSize]
  else []

/-- The standard configuration with the given settings in place of its own
(`default_with_overrides`). -/
def withOverrides (byteOrder : Option ByteOrder) (maxValueSize : Option Nat) : Config where
  byteOrder := byteOrder.getD standard.byteOrder
  maxValueSize := maxValueSize.getD standard.maxValueSize

/-- Refuse a configuration that has problems, naming them all (`validate_strict`). -/
def validate (config : Config) : Except Error Unit :=
  if config.problems = [] then .ok () else .error (.config (.invalid config.problems))

theorem problems_eq_nil_iff (config : Config) :
    config.problems = [] ↔ 1 ≤ config.maxValueSize ∧ config.maxValueSize ≤ limit := by
  unfold problems
  split
  · simp; omega
  · split
    · simp; omega
    · simp; omega

theorem validate_eq_ok_iff {config : Config} : config.validate = .ok () ↔ config.problems = [] := by
  simp [validate]

end Config

end ByteExact
