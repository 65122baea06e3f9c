/-!
# Unsigned decimal numerals

A numeral is an optional single plus sign followed by one or more ASCII digits, leading zeros
allowed, whose value fits in 64 bits. `ofText` reads one from left to right and answers with the
first fault it meets: a character that is no digit, or the digit at which the value stops fitting.
-/
namespace ByteExact

/-- Why a text is not an unsigned 64-bit numeral. -/
inductive NumeralFault
  | empty
  | invalidDigit
  | tooLarge
  deriving DecidableEq, Repr

namespace NumeralFault

def message : NumeralFault → String
  | empty => "cannot parse integer from empty string"
  | invalidDigit => "invalid digit found in string"
  | tooLarge => "number too large to fit in target type"

end NumeralFault

namespace Numeral

/-- The first natural number that does not fit in 64 bits. -/
def bound : Nat := UInt64.size

/-- The value of an ASCII decimal digit. -/
def digit? (c : Char) : Option Nat :=
  if '0' ≤ c ∧ c ≤ '9' then some (c.toNat - '0'.toNat) else none

/-- Continue a number whose leading digits have the value `total`. -/
def extend : Nat → List Char → Except NumeralFault Nat
  | total, [] => .ok total
  | total, c :: rest =>
    match digit? c with
    | none => .error .invalidDigit
    | some d => if 10 * total + d < bound then extend (10 * total + d) rest else .error .tooLarge

/-- Read a numeral given as characters. A lone sign has no digits, so it is faulted as a digit. -/
def ofChars : List Char → Except NumeralFault Nat
  | [] => .error .empty
  | ['+'] => .error .invalidDigit
  | '+' :: digits => extend 0 digits
  | digits => extend 0 digits

def ofText (text : String) : Except NumeralFault Nat :=
  ofChars text.toList

example : ofText "+007" = .ok 7 := by cbv
example : ofText "9999999999999999999x" = .error .invalidDigit := by cbv
example : ofText "99999999999999999999x" = .error .tooLarge := by cbv

end Numeral

end ByteExact
