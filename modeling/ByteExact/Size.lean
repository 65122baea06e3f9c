import ByteExact.Error
/-!
# Sizes

Sizes are natural numbers that must fit in 64 bits. Sums and products of sizes are checked: one
that does not fit is refused as an oversized value of the largest size there is.

Results:
* `add_eq_ok_iff`, `mul_eq_ok_iff`: a checked operation succeeds exactly when the true result fits,
  and then gives it.
-/
namespace ByteExact

/-- A step followed by another succeeds exactly when both do. -/
theorem bind_eq_ok_iff {ε α β : Type} {x : Except ε α} {f : α → Except ε β} {b : β} :
    x >>= f = .ok b ↔ ∃ a, x = .ok a ∧ f a = .ok b := by
  cases x with
  | error e => simp [bind, Except.bind]
  | ok a => simp [bind, Except.bind]

namespace Size

/-- The first size that does not fit. -/
def bound : Nat := UInt64.size

/-- The refusal of a size that does not fit (`size_overflow`). -/
def overflow : Error := .oversizedValue (bound - 1)

/-- A size, if it fits. -/
def check (n : Nat) : Except Error Nat :=
  if n < bound then .ok n else .error overflow

/-- The checked sum of two sizes (`checked_add`). -/
def add (a b : Nat) : Except Error Nat := check (a + b)

/-- The checked product of two sizes (`checked_mul`). -/
def mul (a b : Nat) : Except Error Nat := check (a * b)

theorem check_eq_ok_iff {n m : Nat} : check n = .ok m ↔ n < bound ∧ n = m := by
  unfold check
  split <;> simp <;> omega

theorem check_eq_error_iff {n : Nat} {e : Error} :
    check n = .error e ↔ bound ≤ n ∧ e = overflow := by
  unfold check
  split
  · simp; omega
  · simp [eq_comm]; omega

theorem add_eq_ok_iff {a b n : Nat} : add a b = .ok n ↔ a + b < bound ∧ a + b = n :=
  check_eq_ok_iff

theorem mul_eq_ok_iff {a b n : Nat} : mul a b = .ok n ↔ a * b < bound ∧ a * b = n :=
  check_eq_ok_iff

end Size

end ByteExact
