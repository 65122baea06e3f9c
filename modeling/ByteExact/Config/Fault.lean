import ByteExact.ByteOrder
import ByteExact.Numeral
/-!
# Faults of a configuration

The causes for which a configuration is refused, whether it is read from a document, from a file
or from the environment, and the wording of each. A step that fails for a reason outside the
library, in the text of a document or in the file system, is named without that reason.
-/
namespace ByteExact

namespace Config

/-- The environment variable that overrides the byte order. -/
def byteOrderVariable : String := "BINARY_ENCODING_BYTE_ORDER"

/-- The environment variable that overrides the largest value size. -/
def maxValueSizeVariable : String := "BINARY_ENCODING_MAX_VALUE_SIZE"

/-- A setting that no codec may be built from. -/
inductive Problem
  | zeroLimit
  | limitTooLarge (bytes : Nat)
  deriving DecidableEq, Repr

def Problem.message : Problem → String
  | .zeroLimit => "Max value size cannot be 0"
  | .limitTooLarge bytes =>
    "Max value size too large: " ++ toString bytes ++ " bytes (maximum: 1 GB)"

/-- Why a configuration could not be had, kept or used. -/
inductive Fault
  | cannotParse
  | cannotOpen
  | cannotRead
  | cannotSerialize
  | cannotWrite
  | badByteOrder (cause : UnknownByteOrder)
  | badMaxValueSize (cause : NumeralFault)
  | invalid (problems : List Problem)
  /-- A fault in a caller's own words. -/
  | stated (text : String)
  deriving DecidableEq, Repr

/-- The wording of a fault, without a reason that lies outside the library. -/
def Fault.message : Fault → String
  | .cannotParse => "Failed to parse TOML"
  | .cannotOpen => "Failed to open config file"
  | .cannotRead => "Failed to read config file"
  | .cannotSerialize => "Failed to serialize config"
  | .cannotWrite => "Failed to write config file"
  | .badByteOrder cause => byteOrderVariable ++ ": " ++ cause.message
  | .badMaxValueSize cause => maxValueSizeVariable ++ ": " ++ cause.message
  | .invalid problems =>
    "Configuration validation failed:\n  - "
      ++ String.intercalate "\n  - " (problems.map Problem.message)
  | .stated text => text

end Config

end ByteExact
