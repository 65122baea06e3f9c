import ByteExact.ByteOrder
/-!
# Encoder

An output buffer that bytes are only ever added to, with the byte order in which it writes words.
`putWords` is the bulk form of `putWord`: it looks at the order once for a whole run of words.
A list of `Step`s is a script of what to write.

Results:
* `bytes_putWord`, `bytes_putBytes`, `bytes_putZeros`: each operation appends its own bytes.
* `putWords_eq_foldl`: the bulk form writes what its words one by one would.
-/
namespace ByteExact

/-- The bytes written so far, and the order for the words to come. -/
structure Encoder where
  order : ByteOrder
  bytes : List UInt8
  deriving DecidableEq, Repr

namespace Encoder

/-- An encoder that has written nothing (`new`). -/
def empty (order : ByteOrder) : Encoder := ⟨order, []⟩

/-- The count of bytes written so far (`len`). -/
def length (enc : Encoder) : Nat := enc.bytes.length

/-- Whether nothing was written yet (`is_empty`). -/
def isEmpty (enc : Encoder) : Bool := enc.bytes.isEmpty

/-- Write bytes as they are (`put_slice`). -/
def putBytes (enc : Encoder) (bs : List UInt8) : Encoder :=
  { enc with bytes := enc.bytes ++ bs }

/-- Write one word in the encoder's order (`put_u8`, `put_u16`, `put_u32`, `put_u64`). -/
def putWord (enc : Encoder) (w : Nat) (v : Word w) : Encoder :=
  enc.putBytes (enc.order.bytes w v.toNat)

/-- Write the zero bytes of a blank field (`put_zeros`). -/
def putZeros (enc : Encoder) (count : Nat) : Encoder :=
  enc.putBytes (List.replicate count 0)

/-- Write a run of words of one width (`put_u8_all`, `put_u16_all`, `put_u32_all`,
`put_u64_all`). -/
def putWords (enc : Encoder) (w : Nat) (vs : List (Word w)) : Encoder :=
  match enc.order with
  | .big => enc.putBytes (vs.flatMap fun v => ByteOrder.big.bytes w v.toNat)
  | .little => enc.putBytes (vs.flatMap fun v => ByteOrder.little.bytes w v.toNat)

/-- One thing to write. -/
inductive Step
  | word (w : Nat) (v : Word w)
  | bytes (bs : List UInt8)
  | zeros (count : Nat)

/-- The bytes that a step adds. -/
def Step.width : Step → Nat
  | word w _ => w
  | bytes bs => bs.length
  | zeros count => count

def perform (enc : Encoder) : Step → Encoder
  | .word w v => enc.putWord w v
  | .bytes bs => enc.putBytes bs
  | .zeros count => enc.putZeros count

/-- Perform the steps of a script in order. -/
def run (enc : Encoder) (steps : List Step) : Encoder :=
  steps.foldl perform enc

@[simp] theorem order_putBytes (enc : Encoder) (bs : List UInt8) :
    (enc.putBytes bs).order = enc.order := rfl

@[simp] theorem bytes_putBytes (enc : Encoder) (bs : List UInt8) :
    (enc.putBytes bs).bytes = enc.bytes ++ bs := rfl

@[simp] theorem order_putWord (enc : Encoder) (w : Nat) (v : Word w) :
    (enc.putWord w v).order = enc.order := rfl

@[simp] theorem bytes_putWord (enc : Encoder) (w : Nat) (v : Word w) :
    (enc.putWord w v).bytes = enc.bytes ++ enc.order.bytes w v.toNat := rfl

@[simp] theorem order_putZeros (enc : Encoder) (count : Nat) :
    (enc.putZeros count).order = enc.order := rfl

@[simp] theorem bytes_putZeros (enc : Encoder) (count : Nat) :
    (enc.putZeros count).bytes = enc.bytes ++ List.replicate count 0 := rfl

theorem putWords_eq_putBytes (enc : Encoder) (w : Nat) (vs : List (Word w)) :
    enc.putWords w vs = enc.putBytes (vs.flatMap fun v => enc.order.bytes w v.toNat) := by
  unfold putWords
  split <;> rename_i h <;> rw [h]

theorem putWords_eq_foldl (enc : Encoder) (w : Nat) (vs : List (Word w)) :
    enc.putWords w vs = vs.foldl (fun e v => e.putWord w v) enc := by
  rw [putWords_eq_putBytes]
  induction vs generalizing enc with
  | nil => simp [putBytes]
  | cons v vs ih =>
    rw [List.foldl_cons, ← ih]
    simp [putBytes, putWord]

end Encoder

end ByteExact
