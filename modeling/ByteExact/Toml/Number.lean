import ByteExact.Toml.Text
import ByteExact.Toml.Tree
/-!
# Numbers

TOML integers, which have a sign and 64 bits, in bases ten, sixteen, eight and two, and floats. A
run of digits may be grouped by single underscores between two digits. A float is refused if it is
positive and rounds to infinity; `inf` and `nan` are floats by name.
-/
namespace ByteExact.Toml.Number

/-- The digits behind a first one, and the rest of the text. -/
def moreDigits (isDigit : Char → Bool) : List Char → List Char × List Char
  | [] => ([], [])
  | c :: s =>
    if isDigit c then
      let (digits, rest) := moreDigits isDigit s
      (c :: digits, rest)
    else if c == '_' && s.head?.any isDigit then moreDigits isDigit s
    else ([], c :: s)

/-- A run of at least one digit, leading zeros allowed. -/
def digitRun (isDigit : Char → Bool) : Reader (List Char)
  | [] => none
  | c :: s =>
    if isDigit c then
      let (digits, rest) := moreDigits isDigit s
      some (c :: digits, rest)
    else none

/-- A run of decimal digits without a leading zero, or a zero alone. -/
def wholePart : Reader (List Char)
  | '0' :: s => some (['0'], s)
  | s => digitRun Char.isDigit s

/-- Whether a sign says minus, and the text behind it. -/
def sign : List Char → Bool × List Char
  | '-' :: s => (true, s)
  | '+' :: s => (false, s)
  | s => (false, s)

/-- The number that decimal digits spell. -/
def spelled (digits : List Char) : Nat := Nat.ofDigitChars 10 digits 0

/-- The number that digits spell in a base up to sixteen. -/
def spelledIn (base : Nat) (digits : List Char) : Nat :=
  digits.foldl (fun total c => base * total + (Text.hexDigit? c).getD 0) 0

/-- An integer, if it has 64 bits with its sign. -/
def inRange? (n : Int) : Option Node :=
  if Int64.minValue.toInt ≤ n ∧ n ≤ Int64.maxValue.toInt then some (.integer n) else none

/-- Read the digits of an integer in a base other than ten. -/
def based (base : Nat) : Reader Node := fun s =>
  let isDigit c := (Text.hexDigit? c).any (· < base)
  (digitRun isDigit s).bind fun (digits, s) =>
    (inRange? (spelledIn base digits)).map fun n => (n, s)

/-- The first natural number that rounds to infinity as a double: the largest double and half a
unit of its last place. -/
def roundsToInfinity : Nat := 1 <<< 1024 - 1 <<< 970

/-- Whether the decimal `m · 10 ^ exponent` rounds to infinity, where `m` has at most `count`
digits. The first two tests settle it without a large power. -/
def isInfinite (m count : Nat) (exponent : Int) : Bool :=
  if m = 0 ∨ exponent + count < 300 then false
  else if 310 < exponent then true
  else if 0 ≤ exponent then roundsToInfinity ≤ m * Nat.pow 10 exponent.toNat
  else roundsToInfinity * Nat.pow 10 (-exponent).toNat ≤ m

/-- The digits behind a point, if one follows. -/
def fraction : Reader (List Char)
  | '.' :: s => digitRun Char.isDigit s
  | s => some ([], s)

/-- The power of ten behind an `e`, if one follows. -/
def exponent : Reader Int
  | [] => some (0, [])
  | c :: s =>
    if c == 'e' || c == 'E' then
      let (minus, s) := sign s
      (digitRun Char.isDigit s).map fun (digits, s) =>
        let n : Int := spelled digits
        (if minus then -n else n, s)
    else some (0, c :: s)

/-- What a reader took off the front of `s`, given the rest. -/
def taken (s rest : List Char) : String := String.ofList (s.take (s.length - rest.length))

/-- Read a decimal integer or a float. -/
def decimal : Reader Node := fun s => do
  let (minus, unsigned) := sign s
  let (whole, behindWhole) ← wholePart unsigned
  let (places, behindPlaces) ← fraction behindWhole
  let (power, rest) ← exponent behindPlaces
  if rest.length = behindWhole.length then
    let n : Int := spelled whole
    return (← inRange? (if minus then -n else n), rest)
  else
    let digits := whole ++ places
    if !minus && isInfinite (spelled digits) digits.length (power - places.length) then none
    else return (.float (taken s rest), rest)

/-- Read `inf` or `nan`, which may have a sign. -/
def special : Reader Node := fun s =>
  match (sign s).2 with
  | 'i' :: 'n' :: 'f' :: rest => some (.float (taken s rest), rest)
  | 'n' :: 'a' :: 'n' :: rest => some (.float (taken s rest), rest)
  | _ => none

/-- Read a number of any form. -/
def read : Reader Node
  | '0' :: 'x' :: s => based 16 s
  | '0' :: 'o' :: s => based 8 s
  | '0' :: 'b' :: s => based 2 s
  | s => (special s).or (decimal s)

end ByteExact.Toml.Number
