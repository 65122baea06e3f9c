import ByteExact.Digits
/-!
# Byte order

The two orders in which the base-256 digits of a word can stand, the names they are written with,
and the conversion of a word to and from its bytes.

Results:
* `length_bytes`: a word of width `w` takes exactly `w` bytes in either order.
* `word_bytes`, `bytes_word`: reading what was written gives the word back, and writing what was
  read gives the bytes back.
* `bytes_reverse`: the two orders write the same bytes in opposite directions.
-/
namespace ByteExact

/-- A word of `w` bytes, as its bit pattern. -/
abbrev Word (w : Nat) := BitVec (8 * w)

theorem Word.toNat_lt_weight {w : Nat} (v : Word w) : v.toNat < Digits.weight w :=
  Digits.weight_eq_pow w ▸ v.isLt

inductive ByteOrder
  /-- Most significant byte first. -/
  | big
  /-- Least significant byte first. -/
  | little
  deriving DecidableEq, Repr

/-- A text that names neither byte order. -/
structure UnknownByteOrder where
  text : String
  deriving DecidableEq, Repr

def UnknownByteOrder.message (unknown : UnknownByteOrder) : String :=
  "Invalid byte order: " ++ unknown.text

namespace ByteOrder

instance : Inhabited ByteOrder := ⟨big⟩

/-- The name of an order (`name`). -/
def name : ByteOrder → String
  | big => "BigEndian"
  | little => "LittleEndian"

/-- A spelling reduced to what decides its meaning: ASCII letters in lower case, no separators. -/
def canonicalSpelling (text : String) : String :=
  String.ofList ((text.toList.map Char.toLower).filter fun c => c != '-' && c != '_')

/-- Read the name of an order (`from_str`). Case and the separators `-` and `_` do not matter. -/
def ofText (text : String) : Except UnknownByteOrder ByteOrder :=
  let spelling := canonicalSpelling text
  if spelling ∈ ["big", "bigendian", "be"] then .ok big
  else if spelling ∈ ["little", "littleendian", "le"] then .ok little
  else .error ⟨text⟩

/-- The `w` bytes of `n` in this order, as they are appended to a buffer (`write_u16`, `write_u32`,
`write_u64`). -/
def bytes (order : ByteOrder) (w n : Nat) : List UInt8 :=
  match order with
  | big => (Digits.little w n).reverse
  | little => Digits.little w n

/-- The number that bytes spell in this order. -/
def value (order : ByteOrder) (bs : List UInt8) : Nat :=
  match order with
  | big => Digits.value bs.reverse
  | little => Digits.value bs

/-- The word that `w` bytes spell in this order, as it is taken off a buffer (`read_u16`,
`read_u32`, `read_u64`). -/
def word (order : ByteOrder) (w : Nat) (bs : List UInt8) : Word w :=
  BitVec.ofNat (8 * w) (order.value bs)

@[simp] theorem length_bytes (order : ByteOrder) (w n : Nat) : (order.bytes w n).length = w := by
  cases order <;> simp [bytes]

theorem value_bytes (order : ByteOrder) (w n : Nat) :
    order.value (order.bytes w n) = n % Digits.weight w := by
  cases order <;> simp [bytes, value, Digits.value_little]

theorem bytes_value (order : ByteOrder) (bs : List UInt8) :
    order.bytes bs.length (order.value bs) = bs := by
  cases order
  · have := Digits.little_value bs.reverse
    simp only [List.length_reverse] at this
    simp [bytes, value, this]
  · exact Digits.little_value bs

theorem word_bytes (order : ByteOrder) (w : Nat) (v : Word w) :
    order.word w (order.bytes w v.toNat) = v := by
  apply BitVec.eq_of_toNat_eq
  rw [word, value_bytes, Nat.mod_eq_of_lt v.toNat_lt_weight, BitVec.toNat_ofNat,
    Nat.mod_eq_of_lt v.isLt]

theorem bytes_word (order : ByteOrder) (bs : List UInt8) :
    order.bytes bs.length (order.word bs.length bs).toNat = bs := by
  have h : order.value bs < Digits.weight bs.length := by
    cases order
    · simpa [value] using Digits.value_lt bs.reverse
    · exact Digits.value_lt bs
  rw [Digits.weight_eq_pow] at h
  have hw : order.value bs % 2 ^ (8 * bs.length) = order.value bs := Nat.mod_eq_of_lt h
  rw [word, BitVec.toNat_ofNat, hw, bytes_value]

theorem bytes_reverse (w n : Nat) : (big.bytes w n).reverse = little.bytes w n := by
  simp [bytes]

example : big.bytes 4 0x01020304 = [1, 2, 3, 4] := rfl
example : ofText "Little-ENDIAN" = .ok little := by cbv
example : ofText " big" = .error ⟨" big"⟩ := by cbv

end ByteOrder

end ByteExact
