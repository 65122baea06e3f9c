import ByteExact.Proofs.Acceptance
import ByteExact.Proofs.Independence
import ByteExact.Proofs.Refusal
import ByteExact.Proofs.RoundTrip
/-!
# Framing

Values of any schemas are written back to back, each in a byte order of its own, with no length and
no mark between them. Targets of the same shapes tell where each of them ends: read in the same
sequence, they come back, and the source is left at the first byte behind them. A value that is
refused leaves no trace among the others.

Results:
* `read_toBytes_append`: reading what was encoded, with anything behind it.
* `writeEach_eq`, `readEach_stream`: what writing leaves in the sink, and what reading makes of it.
* `readEach_writeEach`: the two together.
-/
namespace ByteExact

/-! ## Sinks that never fail -/

namespace Sink

variable {σ : Type} [Sink σ] {roomy : σ → Prop}

/-- A sink with this property accepts some of what it is offered, unless it is interrupted, and
keeps the property. -/
def NeverFails (roomy : σ → Prop) : Prop :=
  ∀ {s s' : σ} {bs : List UInt8} {reply : WriteReply}, roomy s → bs ≠ [] →
    offer s bs = (reply, s') →
      roomy s' ∧ (reply = .interrupted ∨ ∃ count, reply = .accepted (count + 1))

theorem roomy_of_reaches (h : NeverFails roomy) {s s' : σ} {bs rest : List UInt8}
    (hr : Reaches s bs s' rest) (hs : roomy s) : roomy s' := by
  induction hr with
  | start s bs => exact hs
  | accepted more reply _ ih => exact ih (h hs more reply).1
  | interrupted more reply _ ih => exact ih (h hs more reply).1

theorem not_stops (h : NeverFails roomy) {s s' : σ} {rest : List UInt8} {fault : IoFault}
    (hs : roomy s) (more : rest ≠ []) : ¬ Stops s rest fault s' := by
  intro hstops
  cases hstops with
  | failed reply => simpa using (h hs more reply).2
  | stalled reply => simpa using (h hs more reply).2

theorem writeAll_of_neverFails (h : NeverFails roomy) (s : σ) (bs : List UInt8) (hs : roomy s) :
    ∃ s', writeAll s bs = .done () s' ∧ held s' = held s ++ bs ∧ roomy s' := by
  have hout := writeAll_outcome s bs
  generalize writeAll s bs = a at hout
  cases hout with
  | @written s' reached =>
    obtain ⟨taken, hbs, hheld⟩ := accepted_of_reaches reached
    rw [List.append_nil] at hbs
    subst hbs
    exact ⟨s', rfl, hheld, roomy_of_reaches h reached hs⟩
  | stopped reached more stops =>
    exact (not_stops h (roomy_of_reaches h reached hs) more stops).elim

end Sink

/-- A throttled sink is without limits if it has no capacity and moves something per call. -/
def ThrottledSink.IsEndless (s : ThrottledSink) : Prop := s.capacity = none ∧ s.chunk ≠ some 0

theorem ThrottledSink.neverFails : Sink.NeverFails ThrottledSink.IsEndless := by
  intro s s' bs reply hs hb hreply
  simp only [Sink.offer, offer, accept] at hreply
  split at hreply
  · cases hreply
    exact ⟨hs, .inl rfl⟩
  · split at hreply
    · rename_i hfull
      rw [room, hs.1] at hfull
      cases hfull
    · cases hreply
      have hcount : atMost s.chunk bs.length ≠ 0 := by
        rw [Ne, ThrottledSource.atMost_eq_zero_iff (List.length_pos_iff.2 hb)]
        exact hs.2
      obtain ⟨count, hcount⟩ := Nat.exists_eq_succ_of_ne_zero hcount
      refine ⟨hs, .inr ⟨count, ?_⟩⟩
      rw [room, hs.1]
      exact congrArg WriteReply.accepted hcount

/-! ## Messages -/

/-- A value and the order in which it is written. -/
structure Message where
  order : ByteOrder
  schema : Schema
  value : schema.Value

namespace Message

/-- The same order, the same schema, and values of one shape. -/
inductive SameShape : Message → Message → Prop
  | intro (order : ByteOrder) (schema : Schema) {a b : schema.Value}
      (values : schema.SameShape a b) : SameShape ⟨order, schema, a⟩ ⟨order, schema, b⟩

def toBytes (m : Message) : Except Error (List UInt8) := m.schema.toBytes m.order m.value

/-- Whether the value has an encoding. -/
def isAccepted (m : Message) : Bool := m.toBytes.isOk

/-- The encoding of the value, nothing if it has none. -/
def encoding (m : Message) : List UInt8 := m.toBytes.toOption.getD []

def write {σ : Type} [Sink σ] (m : Message) (sink : σ) : Attempt σ Unit :=
  m.schema.write m.order m.value sink

/-- Read into the value of a message. -/
def read {σ : Type} [Source σ] (m : Message) (source : σ) : Attempt (Message × σ) Unit :=
  (m.schema.read m.order source m.value).mapState fun (value, source) =>
    (⟨m.order, m.schema, value⟩, source)

/-- The encodings of the accepted ones among messages, back to back. -/
def stream (ms : List Message) : List UInt8 := (ms.filter isAccepted).flatMap encoding

/-- Write messages one after another, whatever becomes of each, and give those that were written. -/
def writeEach {σ : Type} [Sink σ] : List Message → σ → List Message × σ
  | [], sink => ([], sink)
  | m :: ms, sink =>
    let first := m.write sink
    let others := writeEach ms first.state
    match first.result with
    | .ok _ => (m :: others.1, others.2)
    | .error _ => others

/-- Read messages one after another, up to the first that fails. -/
def readEach {σ : Type} [Source σ] : List Message → σ → Attempt (List Message × σ) Unit
  | [], source => .done () ([], source)
  | m :: ms, source =>
    let first := m.read source
    match first.result with
    | .ok _ =>
      (readEach ms first.state.2).mapState fun (others, source) =>
        (first.state.1 :: others, source)
    | .error e => .fail e (first.state.1 :: ms, first.state.2)

end Message

/-- A value is filled with what it holds from its own bytes. -/
theorem Schema.filled_of_toBytes {order : ByteOrder} {s : Schema} {v : s.Value} {bs : List UInt8}
    (h : s.toBytes order v = .ok bs) : s.Filled order bs v v := by
  have hshape := sameShape_refl s v
  have hrefill := Piece.refill_bytes order (alike_pieces s v v hshape) []
  rw [List.append_nil, ← (of_toBytes h).2.2] at hrefill
  exact ⟨hshape, hrefill.symm⟩

/-- What was encoded is read into a target of its shape, and the source is left behind it. -/
theorem Schema.read_toBytes_append {σ : Type} [Source σ] {order : ByteOrder} {s : Schema}
    {v t : s.Value} {bs rest : List UInt8} (hs : s.ownsAll = true) (hv : s.toBytes order v = .ok bs)
    (ht : s.SameShape v t) (source : σ) (hp : Source.pending source = bs ++ rest) :
    ∃ source', s.read order source t = .done () (v, source') ∧ Source.pending source' = rest := by
  obtain ⟨hsize, habsent, -⟩ := of_toBytes hv
  have hn : s.size t = .ok bs.length := by rw [← size_eq_of_sameShape s v t ht, hsize]
  have ha : s.hasAbsent t = false := by rw [← hasAbsent_eq_of_sameShape s v t ht, habsent]
  have htarget := targetSize_eq_ok_iff.2 ⟨isWritable_of_ownsAll s hs, hn⟩
  have hle : bs.length ≤ (Source.pending source).length := by
    rw [hp, List.length_append]
    omega
  obtain ⟨source', hpending, hread⟩ := read_of_le order source htarget hle
  have hfill : s.fromBytes order bs t = .done bs.length v := by
    obtain ⟨t', hdone, hfilled⟩ := fromBytes_of_size order (isWritable_of_ownsAll s hs) ha
      (holdsShared_of_ownsAll s hs t) hn (Nat.le_refl bs.length)
    rw [List.take_length] at hfilled
    rw [hdone, eq_of_filled (admissible_of_size hn) (sameShape_symm s v t ht) hfilled
      (filled_of_toBytes hv) fun _ _ => rfl]
  rw [hp, List.take_left, hfill] at hread
  rw [hp, List.drop_left] at hpending
  exact ⟨source', hread, hpending⟩

namespace Message

theorem writeEach_eq {σ : Type} [Sink σ] {roomy : σ → Prop} (h : Sink.NeverFails roomy)
    (ms : List Message) (sink : σ) (hs : roomy sink) :
    (writeEach ms sink).1 = ms.filter isAccepted ∧
      Sink.held (writeEach ms sink).2 = Sink.held sink ++ stream ms := by
  induction ms generalizing sink with
  | nil => exact ⟨rfl, (List.append_nil _).symm⟩
  | cons m ms ih =>
    cases hbytes : m.toBytes with
    | error e =>
      have hwrite : m.write sink = .fail e sink := Schema.write_of_error hbytes sink
      have hrefused : ¬ m.isAccepted = true := by rw [isAccepted, hbytes]; exact nofun
      rw [stream, List.filter_cons_of_neg hrefused, writeEach, hwrite]
      exact ih sink hs
    | ok bs =>
      obtain ⟨sink', hall, hheld, hs'⟩ := Sink.writeAll_of_neverFails h sink bs hs
      have hwrite : m.write sink = .done () sink' := by
        rw [write, Schema.write_of_ok hbytes, hall]
      have haccepted : m.isAccepted = true := by rw [isAccepted, hbytes]; rfl
      have hencoding : m.encoding = bs := by rw [encoding, hbytes]; rfl
      obtain ⟨hwritten, hrest⟩ := ih sink' hs'
      rw [stream, List.filter_cons_of_pos haccepted, writeEach, hwrite, List.flatMap_cons,
        hencoding, ← List.append_assoc, ← hheld]
      exact ⟨congrArg (m :: ·) hwritten, hrest⟩

theorem toBytes_of_isAccepted {m : Message} (h : m.isAccepted = true) :
    m.toBytes = .ok m.encoding := by
  unfold isAccepted at h
  unfold encoding
  cases hbytes : m.toBytes with
  | error e =>
    rw [hbytes] at h
    cases h
  | ok bs => rfl

theorem read_of_sameShape {σ : Type} [Source σ] {m t : Message} (hm : m.isAccepted = true)
    (hs : m.schema.ownsAll = true) (ht : SameShape m t) (source : σ) {rest : List UInt8}
    (hp : Source.pending source = m.encoding ++ rest) :
    ∃ source', t.read source = .done () (m, source') ∧ Source.pending source' = rest := by
  cases ht with
  | @intro order schema a b values =>
    have hbytes := toBytes_of_isAccepted hm
    obtain ⟨source', hread, hrest⟩ :=
      Schema.read_toBytes_append (t := b) hs hbytes values source hp
    exact ⟨source', by rw [read, hread]; rfl, hrest⟩

theorem readEach_stream {σ : Type} [Source σ] {ms targets : List Message}
    (ht : List.Forall₂ SameShape ms targets) (hm : ∀ m ∈ ms, m.isAccepted = true)
    (hs : ∀ m ∈ ms, m.schema.ownsAll = true) (source : σ) (extra : List UInt8)
    (hp : Source.pending source = ms.flatMap encoding ++ extra) :
    ∃ source', readEach targets source = .done () (ms, source') ∧
      Source.pending source' = extra := by
  induction ht generalizing source with
  | nil => exact ⟨source, rfl, hp⟩
  | @cons m t ms targets hmt _ ih =>
    rw [List.forall_mem_cons] at hm hs
    rw [List.flatMap_cons, List.append_assoc] at hp
    obtain ⟨source₁, hfirst, hp₁⟩ := read_of_sameShape hm.1 hs.1 hmt source hp
    obtain ⟨source₂, hothers, hp₂⟩ := ih hm.2 hs.2 source₁ hp₁
    refine ⟨source₂, ?_, hp₂⟩
    rw [readEach, hfirst]
    show ((readEach targets source₁).mapState _) = _
    rw [hothers]
    rfl

theorem write_of_not_isAccepted {σ : Type} [Sink σ] {m : Message} (h : m.isAccepted = false)
    (sink : σ) : ∃ e, m.toBytes = .error e ∧ m.write sink = .fail e sink := by
  unfold isAccepted at h
  cases hbytes : m.toBytes with
  | error e => exact ⟨e, rfl, Schema.write_of_error hbytes sink⟩
  | ok bs =>
    rw [hbytes] at h
    cases h

/-- **Back to back.** Of messages that are written one after another to a sink that never fails,
just those with an encoding are accepted. The sink gets their encodings and nothing else; a refused
one leaves it as it was. If no schema of an accepted message has a shared reference, then targets of
the same shapes, read in the same sequence from a source that delivers these bytes with anything
behind them, however it does so, all end as the accepted messages, and the source is left at the
first byte behind them. -/
theorem readEach_writeEach {σ τ : Type} [Sink σ] [Source τ] {roomy : σ → Prop}
    (h : Sink.NeverFails roomy) (ms : List Message) (sink : σ) (hsink : roomy sink) :
    (writeEach ms sink).1 = ms.filter isAccepted ∧
      Sink.held (writeEach ms sink).2 = Sink.held sink ++ stream ms ∧
      (∀ m ∈ ms, m.isAccepted = false → ∀ sink' : σ,
        ∃ e, m.toBytes = .error e ∧ m.write sink' = .fail e sink') ∧
      ∀ (targets : List Message) (source : τ) (extra : List UInt8),
        (∀ m ∈ (writeEach ms sink).1, m.schema.ownsAll = true) →
        List.Forall₂ SameShape (writeEach ms sink).1 targets →
        Source.pending source = stream ms ++ extra →
        ∃ source', readEach targets source = .done () ((writeEach ms sink).1, source') ∧
          Source.pending source' = extra := by
  obtain ⟨hwritten, hheld⟩ := writeEach_eq h ms sink hsink
  refine ⟨hwritten, hheld, fun m _ hm sink' => write_of_not_isAccepted hm sink', ?_⟩
  intro targets source extra hs ht hp
  have haccepted : ∀ m ∈ (writeEach ms sink).1, m.isAccepted = true := by
    rw [hwritten]
    exact fun m hm => (List.mem_filter.1 hm).2
  rw [stream, ← hwritten] at hp
  exact readEach_stream ht haccepted hs source extra hp

/-- A shipment, one without its weight, a sequence of no boxes, and one of two. -/
def parcels : List Message :=
  [⟨.big, .shipment, Schema.shipmentOf 0xFFFE 7 (some 0x01020304)⟩,
    ⟨.big, .shipment, Schema.shipmentOf 1 2 none⟩,
    ⟨.little, .boxes, Schema.boxesOf []⟩,
    ⟨.little, .boxes, Schema.boxesOf [0x0102, 0x0304]⟩]

/-- Targets for the three parcels that have an encoding. -/
def blankParcels : List Message :=
  [⟨.big, .shipment, Schema.shipmentOf 0 0 (some 0)⟩, ⟨.little, .boxes, Schema.boxesOf []⟩,
    ⟨.little, .boxes, Schema.boxesOf [0, 0]⟩]

/-- The parcels are written two bytes at a time, read five at a time, and leave one byte behind. -/
theorem readEach_parcels :
    Sink.held (writeEach parcels ({ chunk := some 2, interruptions := 1 } : ThrottledSink)).2 =
        [0xFF, 0xFE, 0, 0, 7, 0, 0, 1, 2, 3, 4, 2, 1, 4, 3] ∧
      ∃ source', readEach blankParcels
          ({ data := [0xFF, 0xFE, 0, 0, 7, 0, 0, 1, 2, 3, 4, 2, 1, 4, 3, 9], chunk := some 5 } :
            ThrottledSource) =
        .done () ([⟨.big, .shipment, Schema.shipmentOf 0xFFFE 7 (some 0x01020304)⟩,
          ⟨.little, .boxes, Schema.boxesOf []⟩,
          ⟨.little, .boxes, Schema.boxesOf [0x0102, 0x0304]⟩], source') ∧
        Source.pending source' = [9] := by
  obtain ⟨hwritten, hheld, -, hread⟩ := readEach_writeEach (τ := ThrottledSource)
    ThrottledSink.neverFails parcels { chunk := some 2, interruptions := 1 } ⟨rfl, by decide⟩
  refine ⟨hheld, ?_⟩
  rw [hwritten] at hread
  have hshapes : List.Forall₂ SameShape (parcels.filter isAccepted) blankParcels :=
    .cons (.intro _ _ ⟨trivial, .cons ⟨trivial, trivial, trivial⟩ .nil, trivial⟩)
      (.cons (.intro _ _ .nil) (.cons (.intro _ _ (.cons trivial (.cons trivial .nil))) .nil))
  exact hread blankParcels _ [9] (by decide) hshapes rfl

end Message

end ByteExact
