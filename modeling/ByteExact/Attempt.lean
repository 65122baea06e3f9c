import ByteExact.Error
/-!
# Attempts

An operation that can fail midway has two outcomes to report: its result, and the state that it
reached, which is kept whether the result is a value or an error.
-/
namespace ByteExact

/-- The result of an operation on a state, and the state that it left. -/
structure Attempt (σ α : Type) where
  result : Except Error α
  state : σ

namespace Attempt

variable {σ τ α β : Type}

/-- Success with `a` in the state `s`. -/
def done (a : α) (s : σ) : Attempt σ α := ⟨.ok a, s⟩

/-- Failure with `e` in the state `s`. -/
def fail (e : Error) (s : σ) : Attempt σ α := ⟨.error e, s⟩

/-- Go on from the state reached, unless that step failed. -/
def andThen (a : Attempt σ α) (next : α → σ → Attempt σ β) : Attempt σ β :=
  match a.result with
  | .ok x => next x a.state
  | .error e => fail e a.state

/-- Show the state reached through `f`. -/
def mapState (f : σ → τ) (a : Attempt σ α) : Attempt τ α := ⟨a.result, f a.state⟩

/-- Refuse before doing anything, or go on with a checked value. -/
def guarded (checked : Except Error α) (s : σ) (next : α → Attempt σ β) : Attempt σ β :=
  match checked with
  | .ok x => next x
  | .error e => fail e s

@[simp] theorem andThen_done (x : α) (s : σ) (next : α → σ → Attempt σ β) :
    (done x s).andThen next = next x s := rfl

@[simp] theorem andThen_fail (e : Error) (s : σ) (next : α → σ → Attempt σ β) :
    (fail e s : Attempt σ α).andThen next = fail e s := rfl

@[simp] theorem guarded_ok (x : α) (s : σ) (next : α → Attempt σ β) :
    guarded (.ok x) s next = next x := rfl

@[simp] theorem guarded_error (e : Error) (s : σ) (next : α → Attempt σ β) :
    guarded (.error e) s next = fail e s := rfl

@[simp] theorem result_mapState (f : σ → τ) (a : Attempt σ α) :
    (a.mapState f).result = a.result := rfl

@[simp] theorem state_mapState (f : σ → τ) (a : Attempt σ α) :
    (a.mapState f).state = f a.state := rfl

end Attempt

end ByteExact
