import ByteExact.Proofs.Encoding
import ByteExact.Stream.Throttled
/-!
# Acceptance

A sink takes what it is offered in pieces of any length, is interrupted, stalls or fails. At every
moment of writing a run to it, it has accepted a prefix of the run, and what is still to be offered
is the rest. So a value is written whole, or as a prefix, or, if it is refused, not at all.

Results:
* `accepted_of_reaches`: what a sink has accepted so far.
* `writeAll_outcome`: how writing a run ends.
* `write_outcome`: how writing a value ends.
-/
namespace ByteExact

namespace Sink

variable {σ : Type} [Sink σ]

/-- Writing `bs` to the sink `s` comes to the sink `s'` with `rest` still to be offered. -/
inductive Reaches : σ → List UInt8 → σ → List UInt8 → Prop
  | start (s : σ) (bs : List UInt8) : Reaches s bs s bs
  | accepted {s s₁ s' : σ} {bs rest : List UInt8} {count : Nat} (more : bs ≠ [])
      (reply : offer s bs = (.accepted (count + 1), s₁))
      (next : Reaches s₁ (bs.drop (count + 1)) s' rest) : Reaches s bs s' rest
  | interrupted {s s₁ s' : σ} {bs rest : List UInt8} (more : bs ≠ [])
      (reply : offer s bs = (.interrupted, s₁)) (next : Reaches s₁ bs s' rest) :
      Reaches s bs s' rest

/-- The sink will not go on with `rest`, which it is offered: it fails, or it accepts nothing. -/
inductive Stops (s : σ) (rest : List UInt8) : IoFault → σ → Prop
  | failed {fault : IoFault} {s' : σ} (reply : offer s rest = (.failed fault, s')) :
      Stops s rest fault s'
  | stalled {s' : σ} (reply : offer s rest = (.accepted 0, s')) : Stops s rest .sinkStalled s'

/-- Writing comes to the end of the run, or to a sink that stops short of it. -/
inductive WriteOutcome (s : σ) (bs : List UInt8) : Attempt σ Unit → Prop
  | written {s' : σ} (reached : Reaches s bs s' []) : WriteOutcome s bs (.done () s')
  | stopped {s₁ s' : σ} {rest : List UInt8} {fault : IoFault} (reached : Reaches s bs s₁ rest)
      (more : rest ≠ []) (stops : Stops s₁ rest fault s') :
      WriteOutcome s bs (.fail (.io fault) s')

theorem Reaches.trans {s s₁ s₂ : σ} {bs bs₁ bs₂ : List UInt8} (h₁ : Reaches s bs s₁ bs₁)
    (h₂ : Reaches s₁ bs₁ s₂ bs₂) : Reaches s bs s₂ bs₂ := by
  induction h₁ with
  | start s bs => exact h₂
  | accepted more reply _ ih => exact .accepted more reply (ih h₂)
  | interrupted more reply _ ih => exact .interrupted more reply (ih h₂)

theorem WriteOutcome.of_reaches {s s₁ : σ} {bs bs₁ : List UInt8} {a : Attempt σ Unit}
    (h₁ : Reaches s bs s₁ bs₁) (h₂ : WriteOutcome s₁ bs₁ a) : WriteOutcome s bs a := by
  cases h₂ with
  | written reached => exact .written (h₁.trans reached)
  | stopped reached more stops => exact .stopped (h₁.trans reached) more stops

theorem writeAll_outcome (s : σ) (bs : List UInt8) : WriteOutcome s bs (writeAll s bs) := by
  fun_induction writeAll s bs with
  | case1 s => exact .written (.start s [])
  | case2 s bs hb s' hreply => exact .stopped (.start s bs) hb (.stalled hreply)
  | case3 s bs hb n s' hreply _ ih => exact ih.of_reaches (.accepted hb hreply (.start s' _))
  | case4 s bs hb s' hreply _ ih => exact ih.of_reaches (.interrupted hb hreply (.start s' bs))
  | case5 s bs hb fault s' hreply => exact .stopped (.start s bs) hb (.failed hreply)

/-- The sink gives one reply to an offer, so one branch of `writeAll` is left at each step. -/
theorem writeAll_of_reaches {s s' : σ} {bs rest : List UInt8} (h : Reaches s bs s' rest) :
    writeAll s bs = writeAll s' rest := by
  induction h with
  | start s bs => rfl
  | accepted more reply _ ih =>
    rw [← ih, writeAll, dif_neg more]
    split <;> simp_all
  | interrupted more reply _ ih =>
    rw [← ih, writeAll, dif_neg more]
    split <;> simp_all

theorem writeAll_of_stops {s s' : σ} {rest : List UInt8} {fault : IoFault} (more : rest ≠ [])
    (h : Stops s rest fault s') : writeAll s rest = .fail (.io fault) s' := by
  rw [writeAll, dif_neg more]
  cases h with
  | failed reply => split <;> simp_all
  | stalled reply => split <;> simp_all

/-! ## What a sink has accepted -/

theorem accepted_of_reaches {s s' : σ} {bs rest : List UInt8} (h : Reaches s bs s' rest) :
    ∃ taken, bs = taken ++ rest ∧ held s' = held s ++ taken := by
  induction h with
  | start s bs => exact ⟨[], rfl, (List.append_nil _).symm⟩
  | @accepted s s₁ s' bs rest count more reply _ ih =>
    obtain ⟨taken, hbs, hheld⟩ := ih
    refine ⟨bs.take (count + 1) ++ taken, ?_, ?_⟩
    · rw [List.append_assoc, ← hbs, List.take_append_drop]
    · rw [hheld, (of_accepted reply).2, List.append_assoc]
  | interrupted more reply _ ih =>
    obtain ⟨taken, hbs, hheld⟩ := ih
    exact ⟨taken, hbs, by rw [hheld, (of_interrupted reply).1]⟩

theorem held_of_stops {s s' : σ} {rest : List UInt8} {fault : IoFault}
    (h : Stops s rest fault s') : held s' = held s := by
  cases h with
  | failed reply => exact of_failed reply
  | stalled reply => rw [(of_accepted reply).2, List.take_zero, List.append_nil]

/-- Writing a run ends with a prefix of it accepted. It succeeds just if that is all of it, and it
fails with what the sink answered when it was offered the rest. -/
theorem writeAll_accepts (s : σ) (bs : List UInt8) :
    ∃ taken rest, bs = taken ++ rest ∧ held (writeAll s bs).state = held s ++ taken ∧
      ((writeAll s bs).result = .ok () ↔ rest = []) ∧
      ∀ e, (writeAll s bs).result = .error e → ∃ s₁ fault, e = .io fault ∧
        Reaches s bs s₁ rest ∧ Stops s₁ rest fault (writeAll s bs).state := by
  have hout := writeAll_outcome s bs
  generalize writeAll s bs = a at hout
  cases hout with
  | @written s' reached =>
    obtain ⟨taken, hbs, hheld⟩ := accepted_of_reaches reached
    exact ⟨taken, [], hbs, hheld, ⟨fun _ => rfl, fun _ => rfl⟩, nofun⟩
  | @stopped s₁ s' rest fault reached more stops =>
    obtain ⟨taken, hbs, hheld⟩ := accepted_of_reaches reached
    have hkept := (held_of_stops stops).trans hheld
    refine ⟨taken, rest, hbs, hkept, ⟨nofun, fun h => (more h).elim⟩, ?_⟩
    intro e he
    cases he
    exact ⟨s₁, fault, rfl, reached, stops⟩

theorem writeAll_nil (s : σ) : writeAll s [] = .done () s := by
  rw [writeAll, dif_pos rfl]

end Sink

namespace Schema

variable {σ : Type} [Sink σ] {order : ByteOrder} {s : Schema} {v : s.Value}

theorem write_of_error {e : Error} (h : s.toBytes order v = .error e) (sink : σ) :
    s.write order v sink = .fail e sink := by
  rw [write, h, Attempt.guarded_error]

theorem write_of_ok {bs : List UInt8} (h : s.toBytes order v = .ok bs) (sink : σ) :
    s.write order v sink = Sink.writeAll sink bs := by
  rw [write, h, Attempt.guarded_ok]

/-- **Writing is all, a prefix, or nothing.** A value that is refused never meets the sink. The
bytes of any other value are offered until all are accepted, and at every moment the sink has
accepted a prefix of them. Writing succeeds just if the prefix is whole; otherwise the error is the
one that the sink stopped with, and the prefix stays. Without any bytes the sink is not called. -/
theorem write_outcome {σ : Type} [Sink σ] (order : ByteOrder) (s : Schema) (v : s.Value)
    (sink : σ) :
    (∀ e, s.toBytes order v = .error e → s.write order v sink = .fail e sink) ∧
      ∀ bs, s.toBytes order v = .ok bs →
        (bs = [] → s.write order v sink = .done () sink) ∧
        (∀ sink' rest, Sink.Reaches sink bs sink' rest →
          ∃ taken, bs = taken ++ rest ∧ Sink.held sink' = Sink.held sink ++ taken) ∧
        ∃ taken rest, bs = taken ++ rest ∧
          Sink.held (s.write order v sink).state = Sink.held sink ++ taken ∧
          ((s.write order v sink).result = .ok () ↔ rest = []) ∧
          ∀ e, (s.write order v sink).result = .error e → ∃ sink' fault, e = .io fault ∧
            Sink.Reaches sink bs sink' rest ∧
            Sink.Stops sink' rest fault (s.write order v sink).state := by
  refine ⟨?_, ?_⟩
  · intro e he
    exact write_of_error he sink
  · intro bs hbs
    rw [write_of_ok hbs]
    refine ⟨?_, fun sink' rest => Sink.accepted_of_reaches, Sink.writeAll_accepts sink bs⟩
    rintro rfl
    exact Sink.writeAll_nil sink

/-- A sink with room for four bytes, which it takes three at a time after an interruption. -/
def narrowSink : ThrottledSink := { capacity := some 4, chunk := some 3, interruptions := 1 }

/-- The same sink with its four bytes, after three calls. -/
def fullSink : ThrottledSink :=
  { held := [0xFF, 0xFE, 0, 0], capacity := some 4, chunk := some 3, calls := 3 }

theorem write_narrowSink :
    shipment.write .big (shipmentOf 0xFFFE 7 (some 0x01020304)) narrowSink =
      .fail (.io ThrottledSink.closed) { fullSink with calls := 4 } := by
  have hbytes : shipment.toBytes .big (shipmentOf 0xFFFE 7 (some 0x01020304)) =
      .ok [0xFF, 0xFE, 0, 0, 7, 0, 0, 1, 2, 3, 4] := rfl
  have hreached : Sink.Reaches narrowSink [0xFF, 0xFE, 0, 0, 7, 0, 0, 1, 2, 3, 4] fullSink
      [7, 0, 0, 1, 2, 3, 4] :=
    .interrupted nofun rfl (.accepted nofun rfl (.accepted nofun rfl (.start fullSink _)))
  rw [write_of_ok hbytes, Sink.writeAll_of_reaches hreached]
  exact Sink.writeAll_of_stops nofun (.failed rfl)

/-- A shipment without its weight is not offered to a sink. One with a weight is; the sink takes
four of its bytes, and writing fails as the sink does when it is offered the others. -/
theorem write_shipment :
    shipment.write .big (shipmentOf 0xFFFE 7 none) narrowSink = .fail .noValue narrowSink ∧
      ∃ sink', Sink.Reaches narrowSink [0xFF, 0xFE, 0, 0, 7, 0, 0, 1, 2, 3, 4] sink'
          [7, 0, 0, 1, 2, 3, 4] ∧
        Sink.Stops sink' [7, 0, 0, 1, 2, 3, 4] ThrottledSink.closed
          (shipment.write .big (shipmentOf 0xFFFE 7 (some 0x01020304)) narrowSink).state := by
  have hrefused := (write_outcome .big shipment (shipmentOf 0xFFFE 7 none) narrowSink).1 _ rfl
  obtain ⟨-, -, taken, rest, hbs, hheld, -, hstops⟩ := (write_outcome .big shipment
    (shipmentOf 0xFFFE 7 (some 0x01020304)) narrowSink).2
    [0xFF, 0xFE, 0, 0, 7, 0, 0, 1, 2, 3, 4] rfl
  rw [write_narrowSink] at hheld hstops ⊢
  have htaken : [0xFF, 0xFE, 0, 0] = taken := hheld
  subst htaken
  cases hbs
  obtain ⟨sink', fault, hfault, hreached, hstopped⟩ := hstops _ rfl
  cases hfault
  exact ⟨hrefused, sink', hreached, hstopped⟩

end Schema

end ByteExact
