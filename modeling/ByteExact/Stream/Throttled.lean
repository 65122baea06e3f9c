import ByteExact.Stream.Sink
import ByteExact.Stream.Source
/-!
# Throttled streams

A sink and a source held in memory that move at most a `chunk` of bytes per call, are interrupted
some number of times first, and count their calls. The sink may have a limited capacity; once it
is full it either accepts nothing or fails. The source may fail once its data is used up.
-/
namespace ByteExact

/-- The smaller of a number and a limit, if there is a limit. -/
def atMost : Option Nat → Nat → Nat
  | none, n => n
  | some limit, n => min limit n

structure ThrottledSink where
  held : List UInt8 := []
  capacity : Option Nat := none
  chunk : Option Nat := none
  /-- Whether a full sink accepts nothing, where it otherwise fails. -/
  stalls : Bool := false
  interruptions : Nat := 0
  calls : Nat := 0
  deriving Repr

namespace ThrottledSink

/-- The bytes that still fit, or `none` if there is no capacity to run out of. -/
def room (s : ThrottledSink) : Option Nat :=
  s.capacity.map (· - s.held.length)

/-- The failure of a sink that has no room left. -/
def closed : IoFault := .reported .brokenPipe "sink closed"

/-- The answer to an offer, on a sink that has counted the call. -/
def accept (s : ThrottledSink) (bs : List UInt8) : WriteReply × ThrottledSink :=
  match s.interruptions with
  | n + 1 => (.interrupted, { s with interruptions := n })
  | 0 =>
    if s.room = some 0 then (if s.stalls then (.accepted 0, s) else (.failed closed, s))
    else
      let count := atMost s.chunk (atMost s.room bs.length)
      (.accepted count, { s with held := s.held ++ bs.take count })

def offer (s : ThrottledSink) (bs : List UInt8) : WriteReply × ThrottledSink :=
  { s with calls := s.calls + 1 }.accept bs

end ThrottledSink

theorem atMost_le (limit : Option Nat) (n : Nat) : atMost limit n ≤ n := by
  cases limit with
  | none => exact Nat.le_refl n
  | some limit => exact Nat.min_le_right limit n

instance : Sink ThrottledSink where
  held := ThrottledSink.held
  offer := ThrottledSink.offer
  patience := ThrottledSink.interruptions
  of_accepted := by
    intro s s' bs count h
    simp only [ThrottledSink.offer, ThrottledSink.accept] at h
    split at h
    · simp at h
    · split at h
      · split at h
        · simp only [Prod.mk.injEq, WriteReply.accepted.injEq] at h
          obtain ⟨rfl, rfl⟩ := h
          simp
        · simp at h
      · simp only [Prod.mk.injEq, WriteReply.accepted.injEq] at h
        obtain ⟨rfl, rfl⟩ := h
        exact ⟨Nat.le_trans (atMost_le _ _) (atMost_le _ _), rfl⟩
  of_interrupted := by
    intro s s' bs h
    simp only [ThrottledSink.offer, ThrottledSink.accept] at h
    split at h
    · rename_i n hn
      simp only [Prod.mk.injEq, true_and] at h
      subst h
      exact ⟨rfl, by simp only at hn ⊢; omega⟩
    · split at h
      · split at h <;> simp at h
      · simp at h
  of_failed := by
    intro s s' bs fault h
    simp only [ThrottledSink.offer, ThrottledSink.accept] at h
    split at h
    · simp at h
    · split at h
      · split at h
        · simp at h
        · simp only [Prod.mk.injEq] at h
          obtain ⟨-, rfl⟩ := h
          rfl
      · simp at h

structure ThrottledSource where
  data : List UInt8 := []
  chunk : Option Nat := none
  /-- Whether the source fails once its data is used up, where it otherwise ends. -/
  fails : Bool := false
  interruptions : Nat := 0
  calls : Nat := 0
  deriving Repr

namespace ThrottledSource

/-- The failure of a source whose data is used up. -/
def broken : IoFault := .reported .connectionReset "source failed"

/-- The answer to a request, on a source that has counted the call. -/
def deliver (s : ThrottledSource) (n : Nat) : ReadReply × ThrottledSource :=
  match s.interruptions with
  | k + 1 => (.interrupted, { s with interruptions := k })
  | 0 =>
    if s.data = [] ∧ s.fails then (.failed broken, s)
    else
      let count := atMost s.chunk n
      (.delivered (s.data.take count), { s with data := s.data.drop count })

def pull (s : ThrottledSource) (n : Nat) : ReadReply × ThrottledSource :=
  { s with calls := s.calls + 1 }.deliver n

/-- The bytes that will be delivered: a source that moves nothing per call looks ended at once. -/
def pending (s : ThrottledSource) : List UInt8 :=
  if s.chunk = some 0 then [] else s.data

/-- The failure behind the bytes that will be delivered. -/
def ending (s : ThrottledSource) : Option IoFault :=
  if s.fails ∧ (s.data = [] ∨ s.chunk ≠ some 0) then some broken else none

theorem pull_delivered {s s' : ThrottledSource} {n : Nat} {bs : List UInt8}
    (h : s.pull n = (.delivered bs, s')) :
    bs = s.data.take (atMost s.chunk n) ∧ s'.data = s.data.drop (atMost s.chunk n)
      ∧ s'.chunk = s.chunk ∧ s'.fails = s.fails ∧ ¬ (s.data = [] ∧ s.fails) := by
  simp only [pull, deliver] at h
  split at h
  · simp at h
  · split at h
    · simp at h
    · rename_i hd
      simp only [Prod.mk.injEq, ReadReply.delivered.injEq] at h
      obtain ⟨rfl, rfl⟩ := h
      exact ⟨rfl, rfl, rfl, rfl, hd⟩

theorem atMost_eq_zero_iff {chunk : Option Nat} {n : Nat} (hn : 0 < n) :
    atMost chunk n = 0 ↔ chunk = some 0 := by
  cases chunk with
  | none => simp [atMost]; omega
  | some limit => simp [atMost]; omega

end ThrottledSource

open ThrottledSource in
instance : Source ThrottledSource where
  pending := ThrottledSource.pending
  ending := ThrottledSource.ending
  pull := ThrottledSource.pull
  patience := ThrottledSource.interruptions
  of_delivered := by
    intro s s' n bs h hn
    obtain ⟨rfl, hdata, hchunk, hfails, hlive⟩ := pull_delivered h
    by_cases hz : s.chunk = some 0
    · have hk : atMost s.chunk n = 0 := (atMost_eq_zero_iff hn).2 hz
      rw [hk, List.drop_zero] at hdata
      have hlive' : s.data = [] → s.fails = false := by simpa using hlive
      have hover : ¬ (s.fails = true ∧ s.data = []) := fun h => by simp [hlive' h.2] at h
      simp [atMost, ThrottledSource.pending, ThrottledSource.ending, hchunk, hfails, hdata, hz,
        hover]
    · have hk : atMost s.chunk n ≠ 0 := fun h0 => hz ((atMost_eq_zero_iff hn).1 h0)
      refine ⟨?_, ?_, ?_, ?_⟩
      · have := atMost_le s.chunk n
        rw [List.length_take]
        omega
      · simp [ThrottledSource.pending, hchunk, hz, hdata]
      · simp [ThrottledSource.ending, hchunk, hz, hfails]
      · intro h0
        have hnil : s.data = [] := by
          rcases List.take_eq_nil_iff.1 h0 with h0 | h0
          · exact absurd h0 hk
          · exact h0
        have hf : s.fails = false := by
          cases hf : s.fails
          · rfl
          · exact absurd ⟨hnil, hf⟩ hlive
        simp [ThrottledSource.pending, ThrottledSource.ending, hnil, hf]
  of_interrupted := by
    intro s s' n h
    simp only [ThrottledSource.pull, ThrottledSource.deliver] at h
    split at h
    · rename_i k hk
      simp only [Prod.mk.injEq, true_and] at h
      subst h
      exact ⟨rfl, rfl, by simp only at hk ⊢; omega⟩
    · split at h <;> simp at h
  of_failed := by
    intro s s' n fault h
    simp only [ThrottledSource.pull, ThrottledSource.deliver] at h
    split at h
    · simp at h
    · split at h
      · rename_i hd
        simp only [Prod.mk.injEq, ReadReply.failed.injEq] at h
        obtain ⟨rfl, rfl⟩ := h
        simp [ThrottledSource.pending, ThrottledSource.ending, hd]
      · simp at h

end ByteExact
