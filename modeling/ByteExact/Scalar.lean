import ByteExact.ByteOrder
/-!
# Scalars

The ten numbers of fixed width, each kept as the word of its bits: integers in two's complement,
floats as their IEEE bit pattern. Beside them stand the two precisions of complex numbers and the
two integers of machine width, which have no fixed width at all.
-/
namespace ByteExact

/-- A number of fixed width. -/
inductive Scalar
  | int8 | int16 | int32 | int64
  | uint8 | uint16 | uint32 | uint64
  | float32 | float64
  deriving DecidableEq, Repr

namespace Scalar

/-- The bytes a number of this kind takes. -/
def width : Scalar → Nat
  | int8 | uint8 => 1
  | int16 | uint16 => 2
  | int32 | uint32 | float32 => 4
  | int64 | uint64 | float64 => 8

def name : Scalar → String
  | int8 => "i8"
  | int16 => "i16"
  | int32 => "i32"
  | int64 => "i64"
  | uint8 => "u8"
  | uint16 => "u16"
  | uint32 => "u32"
  | uint64 => "u64"
  | float32 => "f32"
  | float64 => "f64"

def isSigned : Scalar → Bool
  | int8 | int16 | int32 | int64 => true
  | _ => false

/-- The integer that bits stand for: two's complement for the signed kinds. -/
def number (kind : Scalar) (bits : Word kind.width) : Int :=
  if kind.isSigned then bits.toInt else bits.toNat

end Scalar

/-- The precision of the two parts of a complex number. -/
inductive Precision
  | single
  | double
  deriving DecidableEq, Repr

namespace Precision

/-- The kind of number that each part is. -/
def part : Precision → Scalar
  | single => .float32
  | double => .float64

/-- The bytes that one part takes. -/
abbrev width (precision : Precision) : Nat := precision.part.width

/-- The name of the complex numbers of this precision, which counts the bits of both parts. -/
def complexName : Precision → String
  | single => "Complex64"
  | double => "Complex128"

end Precision

/-- An integer as wide as the machine's words, so without a width of its own. -/
inductive MachineInt
  | signed
  | unsigned
  deriving DecidableEq, Repr

def MachineInt.name : MachineInt → String
  | .signed => "isize"
  | .unsigned => "usize"

end ByteExact
