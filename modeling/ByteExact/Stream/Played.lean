import ByteExact.Stream.Sink
import ByteExact.Stream.Source
/-!
# Played streams

A list of replies makes a stream, which gives them call by call. So the laws of sinks and sources
admit every finite schedule: bytes cut as one likes, interruptions and failures at any place, and an
end before it was expected. A reply that moves more bytes than a call asks for is cut to that.
-/
namespace ByteExact

/-- A sink that gives these replies to the offers to come, and then accepts everything. -/
structure PlayedSink where
  held : List UInt8 := []
  replies : List WriteReply

namespace PlayedSink

def offer (s : PlayedSink) (bs : List UInt8) : WriteReply × PlayedSink :=
  match s.replies with
  | [] => (.accepted bs.length, { s with held := s.held ++ bs })
  | .accepted count :: rest =>
    (.accepted (min count bs.length), ⟨s.held ++ bs.take (min count bs.length), rest⟩)
  | .interrupted :: rest => (.interrupted, ⟨s.held, rest⟩)
  | .failed fault :: rest => (.failed fault, ⟨s.held, rest⟩)

end PlayedSink

instance : Sink PlayedSink where
  held := PlayedSink.held
  offer := PlayedSink.offer
  patience s := s.replies.length
  of_accepted := by
    intro s s' bs count h
    unfold PlayedSink.offer at h
    split at h
    · cases h
      exact ⟨Nat.le_refl _, by rw [List.take_length]⟩
    · cases h
      exact ⟨Nat.min_le_right .., rfl⟩
    · cases h
    · cases h
  of_interrupted := by
    intro s s' bs h
    unfold PlayedSink.offer at h
    split at h
    · cases h
    · cases h
    · rename_i rest hreplies
      cases h
      exact ⟨rfl, by rw [hreplies]; exact Nat.lt_succ_self _⟩
    · cases h
  of_failed := by
    intro s s' bs fault h
    unfold PlayedSink.offer at h
    split at h
    · cases h
    · cases h
    · cases h
    · cases h
      rfl

/-- A source that gives these replies to the calls to come, and then has ended. -/
structure PlayedSource where
  replies : List ReadReply

namespace PlayedSource

/-- A reply without bytes says that the source has ended. Nothing comes behind it. -/
def pull (s : PlayedSource) (n : Nat) : ReadReply × PlayedSource :=
  match s.replies with
  | [] => (.delivered [], s)
  | .delivered bs :: rest =>
    if bs = [] then (.delivered [], s)
    else if bs.length ≤ n then (.delivered bs, ⟨rest⟩)
    else (.delivered (bs.take n), ⟨.delivered (bs.drop n) :: rest⟩)
  | .interrupted :: rest => (.interrupted, ⟨rest⟩)
  | .failed fault :: rest => (.failed fault, ⟨rest⟩)

/-- The bytes of the replies up to the first that is an end or a failure. -/
def pending : List ReadReply → List UInt8
  | [] => []
  | .delivered bs :: rest => if bs = [] then [] else bs ++ pending rest
  | .interrupted :: rest => pending rest
  | .failed _ :: _ => []

/-- The first reply that is an end or a failure, if that is a failure. -/
def ending : List ReadReply → Option IoFault
  | [] => none
  | .delivered bs :: rest => if bs = [] then none else ending rest
  | .interrupted :: rest => ending rest
  | .failed fault :: _ => some fault

theorem pending_delivered {bs : List UInt8} (h : bs ≠ []) (rest : List ReadReply) :
    pending (.delivered bs :: rest) = bs ++ pending rest := if_neg h

theorem ending_delivered {bs : List UInt8} (h : bs ≠ []) (rest : List ReadReply) :
    ending (.delivered bs :: rest) = ending rest := if_neg h

end PlayedSource

open PlayedSource in
instance : Source PlayedSource where
  pending s := PlayedSource.pending s.replies
  ending s := PlayedSource.ending s.replies
  pull := PlayedSource.pull
  patience s := s.replies.length
  of_delivered := by
    intro s s' n bs h hn
    unfold PlayedSource.pull at h
    split at h
    · rename_i hreplies
      cases h
      simp [hreplies, PlayedSource.pending, PlayedSource.ending]
    · rename_i bytes rest hreplies
      rw [hreplies]
      by_cases hnil : bytes = []
      · rw [if_pos hnil] at h
        cases h
        simp [hreplies, hnil, PlayedSource.pending, PlayedSource.ending]
      · rw [if_neg hnil] at h
        rw [pending_delivered hnil, ending_delivered hnil]
        split at h
        · rename_i hle
          cases h
          exact ⟨hle, rfl, rfl, fun h => (hnil h).elim⟩
        · -- what the call did not ask for stays in front, and is not empty
          rename_i hlong
          cases h
          have hleft : bytes.drop n ≠ [] := by
            rw [Ne, List.drop_eq_nil_iff]
            exact hlong
          have htaken : bytes.take n ≠ [] := by
            rw [Ne, List.take_eq_nil_iff, not_or]
            exact ⟨Nat.ne_of_gt hn, hnil⟩
          refine ⟨List.length_take_le .., ?_, ending_delivered hleft rest,
            fun h => (htaken h).elim⟩
          rw [pending_delivered hleft, ← List.append_assoc, List.take_append_drop]
    · cases h
    · cases h
  of_interrupted := by
    intro s s' n h
    unfold PlayedSource.pull at h
    split at h
    · cases h
    · split at h
      · cases h
      · split at h <;> cases h
    · rename_i rest hreplies
      cases h
      rw [hreplies]
      exact ⟨rfl, rfl, Nat.lt_succ_self _⟩
    · cases h
  of_failed := by
    intro s s' n fault h
    unfold PlayedSource.pull at h
    split at h
    · cases h
    · split at h
      · cases h
      · split at h <;> cases h
    · cases h
    · rename_i hreplies
      cases h
      rw [hreplies]
      exact ⟨rfl, rfl⟩

/-- Bytes cut into chunks, with an interruption between them and a failure behind. -/
example : Source.pending (PlayedSource.mk
    [.delivered [1, 2], .interrupted, .delivered [3], .failed .sourceEnded, .delivered [4]]) =
      [1, 2, 3] := rfl

end ByteExact
