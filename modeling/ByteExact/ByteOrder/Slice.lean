import ByteExact.ByteOrder
/-!
# Words at the front of a buffer

Writing and reading a word in place, in the first bytes of a longer buffer. Position `i` of the
word holds the digit at its place: it is written there, and reading sums up what stands there by the
weights of the places. A buffer shorter than the word has no result.

Results:
* `bytes_eq_map`: the bytes of a word are its digits, each at its place.
* `get?_of_le`: reading gives the word that the first bytes spell.
* `put?_of_le`: writing puts the bytes of the word in front, and leaves the buffer behind them.
-/
namespace ByteExact.ByteOrder

/-- The digit that position `i` of a word of `w` bytes holds, counted from the least significant. -/
def place (order : ByteOrder) (w i : Nat) : Nat :=
  match order with
  | big => w - 1 - i
  | little => i

theorem bytes_eq_map (order : ByteOrder) (w n : Nat) :
    order.bytes w n =
      (List.range w).map fun i => UInt8.ofNat (n / Digits.weight (order.place w i)) := by
  cases order with
  | little => exact Digits.little_eq_map w n
  | big =>
    rw [bytes, Digits.little_eq_map]
    apply List.ext_getElem
    · simp
    · intro i _ _
      simp only [List.getElem_reverse, List.getElem_map, List.getElem_range, List.length_map,
        List.length_range, place]

/-- Overwrite the first `w` bytes of `buffer` with `v` (`put_u16`, `put_u32`, `put_u64`). -/
def put? (order : ByteOrder) (w : Nat) (buffer : List UInt8) (v : Word w) : Option (List UInt8) :=
  if w ≤ buffer.length then
    some (buffer.mapIdx fun i old =>
      if i < w then UInt8.ofNat (v.toNat / Digits.weight (order.place w i)) else old)
  else none

/-- The sum of the weighted digits of a word, from position `i` on. -/
def weigh (order : ByteOrder) (w : Nat) : Nat → List UInt8 → Nat
  | _, [] => 0
  | i, b :: bs => b.toNat * Digits.weight (order.place w i) + weigh order w (i + 1) bs

/-- The word in the first `w` bytes of `buffer` (`u16`, `u32`, `u64`). -/
def get? (order : ByteOrder) (w : Nat) (buffer : List UInt8) : Option (Word w) :=
  if w ≤ buffer.length then
    some (BitVec.ofNat (8 * w) (order.weigh w 0 (buffer.take w)))
  else none

theorem put?_eq_none_iff (order : ByteOrder) (w : Nat) (buffer : List UInt8) (v : Word w) :
    order.put? w buffer v = none ↔ buffer.length < w := by
  simp [put?]

theorem get?_eq_none_iff (order : ByteOrder) (w : Nat) (buffer : List UInt8) :
    order.get? w buffer = none ↔ buffer.length < w := by
  simp [get?]

/-! ## Reading -/

theorem weigh_little (w i : Nat) (bs : List UInt8) :
    little.weigh w i bs = Digits.weight i * Digits.value bs := by
  induction bs generalizing i with
  | nil => rfl
  | cons b bs ih =>
    rw [weigh, ih, Digits.value, Digits.weight, place, Nat.mul_add, Nat.mul_comm b.toNat,
      Nat.mul_comm 256, Nat.mul_assoc]

/-- Places count down, so the last byte has weight one only where the bytes end with the word. -/
theorem weigh_big {w i : Nat} {bs : List UInt8} (h : i + bs.length = w) :
    big.weigh w i bs = Digits.value bs.reverse := by
  induction bs generalizing i with
  | nil => rfl
  | cons b bs ih =>
    rw [List.length_cons] at h
    have hplace : big.place w i = bs.length := by
      rw [place]
      omega
    rw [weigh, hplace, ih (by omega), List.reverse_cons, Digits.value_append_singleton,
      List.length_reverse, Nat.mul_comm, Nat.add_comm]

theorem weigh_eq_value (order : ByteOrder) (bs : List UInt8) :
    order.weigh bs.length 0 bs = order.value bs := by
  cases order with
  | big => exact weigh_big (Nat.zero_add bs.length)
  | little => rw [weigh_little, Digits.weight, Nat.one_mul, value]

theorem get?_of_le (order : ByteOrder) {w : Nat} {buffer : List UInt8} (h : w ≤ buffer.length) :
    order.get? w buffer = some (order.word w (buffer.take w)) := by
  have hlength : (buffer.take w).length = w := List.length_take_of_le h
  have hvalue := order.weigh_eq_value (buffer.take w)
  rw [hlength] at hvalue
  rw [get?, if_pos h, hvalue, word]

/-! ## Writing -/

theorem put?_of_le (order : ByteOrder) {w : Nat} {buffer : List UInt8} (h : w ≤ buffer.length)
    (v : Word w) : order.put? w buffer v = some (order.bytes w v.toNat ++ buffer.drop w) := by
  rw [put?, if_pos h, bytes_eq_map]
  congr 1
  apply List.ext_getElem
  · simp only [List.length_mapIdx, List.length_append, List.length_map, List.length_range,
      List.length_drop]
    omega
  · intro i _ _
    rw [List.getElem_mapIdx]
    by_cases hi : i < w
    · rw [if_pos hi, List.getElem_append_left (by simpa using hi), List.getElem_map,
        List.getElem_range]
    · rw [if_neg hi, List.getElem_append_right (by simpa using hi), List.getElem_drop]
      congr 1
      simp only [List.length_map, List.length_range]
      omega

end ByteExact.ByteOrder
