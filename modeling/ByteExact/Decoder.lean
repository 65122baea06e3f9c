import ByteExact.Attempt
import ByteExact.ByteOrder.Slice
/-!
# Decoder

An input cursor over a run of bytes, with the byte order in which it reads words. Everything that
it hands out goes through `take`, which gives the next bytes or, if there are too few of them,
reports a short read and consumes nothing. `fillWords` is the bulk read of a run of words: all of
them, or none. A `Request` is one call on a decoder, and `serve` answers it.

Results:
* `take_of_le`, `take_of_lt`: both outcomes of `take`, told apart by what is left.
-/
namespace ByteExact

/-- The bytes not yet consumed, and the order of the words among them. -/
structure Decoder where
  order : ByteOrder
  unread : List UInt8
  deriving DecidableEq, Repr

namespace Decoder

/-- The count of bytes not yet consumed (`remaining`). -/
def remaining (d : Decoder) : Nat := d.unread.length

/-- Consume exactly `count` bytes (`take`). -/
def take (d : Decoder) (count : Nat) : Attempt Decoder (List UInt8) :=
  if d.remaining < count then .fail (.shortRead count d.remaining) d
  else .done (d.unread.take count) { d with unread := d.unread.drop count }

/-- Discard the bytes of a blank field (`skip`). -/
def skip (d : Decoder) (count : Nat) : Attempt Decoder Unit :=
  (d.take count).andThen fun _ d => .done () d

/-- Consume one word in the decoder's order (`get_u8`, `get_u16`, `get_u32`, `get_u64`). -/
def word (d : Decoder) (w : Nat) : Attempt Decoder (Word w) :=
  (d.take w).andThen fun bs d => .done (d.order.word w bs) d

/-- Consume as many bytes as a destination holds, and overwrite it with them
(`copy_to_slice`). -/
def copyOver (d : Decoder) (destination : List UInt8) : Attempt (List UInt8 × Decoder) Unit :=
  let taken := d.take destination.length
  match taken.result with
  | .ok bs => .done () (bs, taken.state)
  | .error e => .fail e (destination, taken.state)

/-- Consume one word and store it, unless that fails. -/
def fillWord (d : Decoder) (w : Nat) (slot : Word w) : Attempt (Word w × Decoder) Unit :=
  let read := d.word w
  match read.result with
  | .ok v => .done () (v, read.state)
  | .error e => .fail e (slot, read.state)

/-- Refill slots from the consecutive groups of `w` bytes of `bs`, each read in place (`fill`).
Slots for which there is no whole group are left. -/
def refill (order : ByteOrder) (w : Nat) : List (Word w) → List UInt8 → List (Word w)
  | [], _ => []
  | slot :: slots, bs =>
    match order.get? w bs with
    | some v => v :: refill order w slots (bs.drop w)
    | none => slot :: slots

/-- Consume a run of words and store them all, or none of them (`get_u16_into`, `get_u32_into`,
`get_u64_into`). -/
def fillWords (d : Decoder) (w : Nat) (slots : List (Word w)) :
    Attempt (List (Word w) × Decoder) Unit :=
  let taken := d.take (slots.length * w)
  match taken.result with
  | .error e => .fail e (slots, taken.state)
  | .ok bs =>
    match d.order with
    | .big => .done () (refill .big w slots bs, taken.state)
    | .little => .done () (refill .little w slots bs, taken.state)

/-- One call on a decoder. -/
inductive Request
  | word (w : Nat)
  | take (count : Nat)
  | skip (count : Nat)
  | copyOver (destination : List UInt8)

/-- What a successful request gives. -/
inductive Reply
  | word (w : Nat) (v : Word w)
  | bytes (bs : List UInt8)
  | nothing

/-- The bytes that a request asks for. -/
def Request.width : Request → Nat
  | word w => w
  | take count => count
  | skip count => count
  | copyOver destination => destination.length

/-- The destination of a request, empty for one that has none. -/
def Request.destination : Request → List UInt8
  | copyOver destination => destination
  | _ => []

/-- Answer a request. The state holds its destination afterwards, beside the decoder. -/
def serve (d : Decoder) : Request → Attempt (List UInt8 × Decoder) Reply
  | .word w => ((d.word w).andThen fun v d => .done (.word w v) d).mapState ([], ·)
  | .take count => ((d.take count).andThen fun bs d => .done (.bytes bs) d).mapState ([], ·)
  | .skip count => ((d.skip count).andThen fun _ d => .done .nothing d).mapState ([], ·)
  | .copyOver destination =>
    (d.copyOver destination).andThen fun _ state => .done .nothing state

theorem take_of_le {d : Decoder} {count : Nat} (h : count ≤ d.remaining) :
    d.take count = .done (d.unread.take count) { d with unread := d.unread.drop count } := by
  rw [take, if_neg (Nat.not_lt.2 h)]

theorem take_of_lt {d : Decoder} {count : Nat} (h : d.remaining < count) :
    d.take count = .fail (.shortRead count d.remaining) d := by
  rw [take, if_pos h]

@[simp] theorem length_refill (order : ByteOrder) (w : Nat) (slots : List (Word w))
    (bs : List UInt8) : (refill order w slots bs).length = slots.length := by
  induction slots generalizing bs with
  | nil => rfl
  | cons slot slots ih =>
    rw [refill]
    split
    · rw [List.length_cons, List.length_cons, ih]
    · rfl

/-- A group read in place is the word that its bytes spell. -/
theorem refill_cons_of_le (order : ByteOrder) {w : Nat} {bs : List UInt8} (h : w ≤ bs.length)
    (slot : Word w) (slots : List (Word w)) :
    refill order w (slot :: slots) bs =
      order.word w (bs.take w) :: refill order w slots (bs.drop w) := by
  rw [refill, order.get?_of_le h]

theorem length_fillWords (d : Decoder) (w : Nat) (slots : List (Word w)) :
    (d.fillWords w slots).state.1.length = slots.length := by
  unfold fillWords
  dsimp only
  split
  · rfl
  · split <;> exact length_refill ..

end Decoder

end ByteExact
