/-!
# Base-256 digits

A natural number written with a fixed count of base-256 digits, least significant first, and the
number that a run of digits spells.

Results:
* `weight_eq_pow`: `w` digits have the range of `8 * w` bits.
* `length_little`, `value_little`: `w` digits spell the number modulo `weight w`.
* `little_eq_map`: digit `i` is the one of weight `weight i`.
* `value_lt`, `little_value`: a run of digits spells a number below the weight of its length, and
  writing that number with as many digits gives the run back.
* `value_append_singleton`: one digit more, of the highest weight.
-/
namespace ByteExact.Digits

/-- The lowest `w` base-256 digits of `n`, least significant first. -/
def little : Nat → Nat → List UInt8
  | 0, _ => []
  | w + 1, n => UInt8.ofNat n :: little w (n / 256)

/-- The number spelled by digits that stand least significant first. -/
def value : List UInt8 → Nat
  | [] => 0
  | b :: bs => b.toNat + 256 * value bs

/-- The weight of digit `i`, counted from the least significant. -/
def weight : Nat → Nat
  | 0 => 1
  | i + 1 => 256 * weight i

theorem weight_eq_pow (w : Nat) : weight w = Nat.pow 2 (8 * w) := by
  induction w with
  | zero => rfl
  | succ w ih =>
    have h : Nat.pow 2 (8 * w + 8) = Nat.pow 2 (8 * w) * 256 := Nat.pow_add 2 (8 * w) 8
    rw [weight, ih, Nat.mul_succ, h, Nat.mul_comm]

theorem weight_add (m n : Nat) : weight (m + n) = weight m * weight n := by
  rw [weight_eq_pow, weight_eq_pow, weight_eq_pow, Nat.mul_add]
  exact Nat.pow_add 2 (8 * m) (8 * n)

theorem weight_pos (i : Nat) : 0 < weight i := by
  rw [weight_eq_pow]
  exact Nat.two_pow_pos (8 * i)

@[simp] theorem length_little (w n : Nat) : (little w n).length = w := by
  induction w generalizing n with
  | zero => rfl
  | succ w ih => simp [little, ih]

theorem little_eq_map (w n : Nat) :
    little w n = (List.range w).map fun i => UInt8.ofNat (n / weight i) := by
  induction w generalizing n with
  | zero => rfl
  | succ w ih =>
    rw [little, ih, List.range_succ_eq_map, List.map_cons, List.map_map]
    congr 1
    · rw [weight, Nat.div_one]
    · apply List.map_congr_left
      intro i _
      rw [Function.comp_apply, Nat.succ_eq_add_one, weight, Nat.div_div_eq_div_mul]

theorem value_little (w n : Nat) : value (little w n) = n % weight w := by
  induction w generalizing n with
  | zero => rw [little, value, weight, Nat.mod_one]
  | succ w ih =>
    have h : 2 ^ 8 = 256 := rfl
    rw [little, value, ih, UInt8.toNat_ofNat', h, weight, Nat.mod_mul]

theorem value_lt (bs : List UInt8) : value bs < weight bs.length := by
  induction bs with
  | nil => exact Nat.one_pos
  | cons b bs ih =>
    have := b.toNat_lt
    rw [value, List.length_cons, weight]
    omega

theorem little_value (bs : List UInt8) : little bs.length (value bs) = bs := by
  induction bs with
  | nil => rfl
  | cons b bs ih =>
    have hb := b.toNat_lt
    have hd : (b.toNat + 256 * value bs) / 256 = value bs := by omega
    rw [value, List.length_cons, little, hd, ih]
    congr 1
    apply UInt8.toNat_inj.mp
    rw [UInt8.toNat_ofNat']
    omega

theorem value_append_singleton (bs : List UInt8) (b : UInt8) :
    value (bs ++ [b]) = value bs + weight bs.length * b.toNat := by
  induction bs with
  | nil => simp [value, weight]
  | cons c bs ih =>
    rw [List.cons_append, value, value, ih, List.length_cons, weight, Nat.mul_add, Nat.mul_assoc,
      Nat.add_assoc]

end ByteExact.Digits
