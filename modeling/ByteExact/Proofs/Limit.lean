import ByteExact.Codec
import ByteExact.Proofs.Acceptance
import ByteExact.Proofs.Arrival
import ByteExact.Proofs.Delivery
import ByteExact.Proofs.RoundTrip
/-!
# Limits

A codec adds one check to what is done to a value without it. A value that is too large for the
codec, or that has no size, is refused by all five operations alike, before anything else is looked
at. For any other value the codec might as well not be there, whatever then comes of it: the check
ahead of decoding, a fault on the way, a stream that stops.

Results:
* `ofConfig_eq_ok_iff`: which codecs there are.
* `accepts_write`, `takes_read`: no more than the size of a value goes to a sink or comes from a
  source.
* `guards`: what a codec refuses, what it allows, and how many bytes a call can move.
-/
namespace ByteExact

namespace Schema

theorem accepts_write {σ : Type} [Sink σ] {s : Schema} {v : s.Value} {n : Nat} (order : ByteOrder)
    (hn : s.size v = .ok n) (sink : σ) :
    ∃ taken, Sink.held (s.write order v sink).state = Sink.held sink ++ taken ∧
      taken.length ≤ n := by
  cases hb : s.toBytes order v with
  | error e =>
    rw [write_of_error hb]
    exact ⟨[], (List.append_nil _).symm, Nat.zero_le n⟩
  | ok bs =>
    obtain ⟨taken, rest, hbs, hheld, -⟩ := Sink.writeAll_accepts sink bs
    have hlength : n = bs.length := Except.ok.inj (hn.symm.trans (of_toBytes hb).1)
    rw [hbs, List.length_append] at hlength
    rw [write_of_ok hb]
    exact ⟨taken, hheld, by omega⟩

theorem takes_read {σ : Type} [Source σ] {s : Schema} {t : s.Value} {n : Nat} (order : ByteOrder)
    (hn : s.size t = .ok n) (source : σ) :
    ∃ taken, Source.Takes source taken (s.read order source t).state.2 ∧ taken.length ≤ n := by
  cases htarget : s.targetSize t with
  | error e =>
    rw [read, htarget, Attempt.guarded_error]
    exact ⟨[], .none source, Nat.zero_le n⟩
  | ok m =>
    have hm : m = n := Except.ok.inj ((targetSize_eq_ok_iff.1 htarget).2.symm.trans hn)
    obtain ⟨taken, htakes, hle, -⟩ := Source.takes_readExact source m
    rw [read, htarget, Attempt.guarded_ok]
    generalize Source.readExact source m = a at htakes ⊢
    obtain ⟨_ | data, source'⟩ := a
    · exact ⟨taken, htakes, hm ▸ hle⟩
    · refine ⟨taken, ?_, hm ▸ hle⟩
      -- Filling the target does not touch the source any more.
      show Source.Takes source taken (((s.fromBytes order data t).mapState (·, source')).andThen
        fun _ state => .done () state).state.2
      rw [Attempt.state_andThen_done]
      exact htakes

end Schema

namespace Codec

/-- Every operation of a codec on a value fails with `e`, and nothing else happens. -/
structure Refuses (codec : Codec) (s : Schema) (v : s.Value) (e : Error) : Prop where
  size : codec.size s v = .error e
  toBytes : codec.toBytes s v = .error e
  write : ∀ {σ : Type} [Sink σ] (sink : σ), codec.write s v sink = .fail e sink
  fromBytes : ∀ data, codec.fromBytes s data v = .fail e v
  read : ∀ {σ : Type} [Source σ] (source : σ), codec.read s source v = .fail e (v, source)

/-- Every operation of a codec on a value is that of its byte order. -/
structure Allows (codec : Codec) (s : Schema) (v : s.Value) : Prop where
  size : codec.size s v = s.size v
  toBytes : codec.toBytes s v = s.toBytes codec.byteOrder v
  write : ∀ {σ : Type} [Sink σ] (sink : σ), codec.write s v sink = s.write codec.byteOrder v sink
  fromBytes : ∀ data, codec.fromBytes s data v = s.fromBytes codec.byteOrder data v
  read : ∀ {σ : Type} [Source σ] (source : σ),
    codec.read s source v = s.read codec.byteOrder source v

variable {codec : Codec} {s : Schema} {v : s.Value} {n : Nat} {e : Error}

theorem ofConfig_eq_ok_iff {config : Config} :
    ofConfig config = .ok codec ↔ codec.config = config := by
  unfold ofConfig
  split
  · constructor
    · intro h
      cases h
      rfl
    · rintro rfl
      rfl
  · rename_i e hrefused
    constructor
    · intro h
      cases h
    · rintro rfl
      rw [Config.validate_eq_ok_iff.2 codec.valid] at hrefused
      cases hrefused

theorem size_of_lt (hn : s.size v = .ok n) (h : codec.config.maxValueSize < n) :
    codec.size s v = .error (.oversizedValue n) := by
  rw [size, hn]
  exact if_pos h

theorem size_of_le (hn : s.size v = .ok n) (h : n ≤ codec.config.maxValueSize) :
    codec.size s v = .ok n := by
  rw [size, hn]
  exact if_neg (Nat.not_lt.2 h)

theorem size_of_error (he : s.size v = .error e) : codec.size s v = .error e := by
  rw [size, he]
  rfl

/-- The check is the first thing that every operation does. -/
theorem refuses_of_size (h : codec.size s v = .error e) : codec.Refuses s v e where
  size := h
  toBytes := by
    rw [toBytes, h]
    rfl
  write sink := by rw [write, h, Attempt.guarded_error]
  fromBytes data := by rw [fromBytes, h, Attempt.guarded_error]
  read source := by rw [read, h, Attempt.guarded_error]

theorem allows_of_size (hn : s.size v = .ok n) (h : codec.size s v = .ok n) : codec.Allows s v where
  size := h.trans hn.symm
  toBytes := by
    rw [toBytes, h]
    rfl
  write sink := by rw [write, h, Attempt.guarded_ok]
  fromBytes data := by rw [fromBytes, h, Attempt.guarded_ok]
  read source := by rw [read, h, Attempt.guarded_ok]

/-- A value is refused, or it has a size within the limit and is allowed. -/
theorem refuses_or_allows (codec : Codec) (s : Schema) (v : s.Value) :
    (∃ e, codec.Refuses s v e) ∨ ∃ n, s.size v = .ok n ∧ n ≤ Config.limit ∧ codec.Allows s v := by
  cases hsize : s.size v with
  | error e => exact .inl ⟨e, refuses_of_size (size_of_error hsize)⟩
  | ok n =>
    by_cases h : codec.config.maxValueSize < n
    · exact .inl ⟨_, refuses_of_size (size_of_lt hsize h)⟩
    · have hle := Nat.not_lt.1 h
      have hallows := allows_of_size hsize (size_of_le hsize hle)
      exact .inr ⟨n, rfl, Nat.le_trans hle codec.limit_le, hallows⟩

theorem write_within {σ : Type} [Sink σ] (codec : Codec) (s : Schema) (v : s.Value) (sink : σ) :
    ∃ taken, Sink.held (codec.write s v sink).state = Sink.held sink ++ taken ∧
      taken.length ≤ Config.limit := by
  rcases codec.refuses_or_allows s v with ⟨e, hrefuses⟩ | ⟨n, hn, hle, hallows⟩
  · rw [hrefuses.write]
    exact ⟨[], (List.append_nil _).symm, Nat.zero_le _⟩
  · obtain ⟨taken, hheld, htaken⟩ := Schema.accepts_write codec.byteOrder hn sink
    rw [hallows.write]
    exact ⟨taken, hheld, Nat.le_trans htaken hle⟩

theorem read_within {σ : Type} [Source σ] (codec : Codec) (s : Schema) (source : σ) (t : s.Value) :
    ∃ taken, Source.Takes source taken (codec.read s source t).state.2 ∧
      taken.length ≤ Config.limit := by
  rcases codec.refuses_or_allows s t with ⟨e, hrefuses⟩ | ⟨n, hn, hle, hallows⟩
  · rw [hrefuses.read]
    exact ⟨[], .none source, Nat.zero_le _⟩
  · obtain ⟨taken, htakes, htaken⟩ := Schema.takes_read codec.byteOrder hn source
    rw [hallows.read]
    exact ⟨taken, htakes, Nat.le_trans htaken hle⟩

/-- **A codec is a limit.** Every codec is the one that its configuration gives, and no other
configuration gives it. Its limit is at least a byte and at most a gigabyte. A value that encodes to
more than the limit is refused by every operation with its size, and one that cannot be sized with
what keeps it from that. With any other value, every operation comes to just what it does without
the codec. So no call moves more than a gigabyte into a sink or out of a source, in whatever way
these behave. -/
theorem guards (codec : Codec) :
    (∀ config, ofConfig config = .ok codec ↔ codec.config = config) ∧
      (1 ≤ codec.config.maxValueSize ∧ codec.config.maxValueSize ≤ 1073741824) ∧
      (∀ (s : Schema) (v : s.Value),
        (∀ n, s.size v = .ok n → codec.config.maxValueSize < n →
          codec.Refuses s v (.oversizedValue n)) ∧
        (∀ e, s.size v = .error e → codec.Refuses s v e) ∧
        ∀ n, s.size v = .ok n → n ≤ codec.config.maxValueSize → codec.Allows s v) ∧
      (∀ {σ : Type} [Sink σ] (s : Schema) (v : s.Value) (sink : σ),
        ∃ taken, Sink.held (codec.write s v sink).state = Sink.held sink ++ taken ∧
          taken.length ≤ 1073741824) ∧
      ∀ {σ : Type} [Source σ] (s : Schema) (source : σ) (t : s.Value),
        ∃ taken, Source.Takes source taken (codec.read s source t).state.2 ∧
          taken.length ≤ 1073741824 := by
  refine ⟨?_, ⟨codec.one_le_limit, codec.limit_le⟩, ?_, ?_, ?_⟩
  · intro config
    exact ofConfig_eq_ok_iff
  · intro s v
    refine ⟨?_, ?_, ?_⟩
    · intro n hn h
      exact refuses_of_size (size_of_lt hn h)
    · intro e he
      exact refuses_of_size (size_of_error he)
    · intro n hn h
      exact allows_of_size hn (size_of_le hn h)
  · intro σ _ s v sink
    exact codec.write_within s v sink
  · intro σ _ s source t
    exact codec.read_within s source t

/-- A codec for values of no more than eight bytes. -/
def eightBytes : Codec := ⟨{ byteOrder := .little, maxValueSize := 8 }, rfl⟩

/-- A shipment has eleven bytes, and is too large for the codec. A sample has seven, and passes with
its weight; without it, it is refused for that. -/
theorem guards_eightBytes :
    ofConfig { byteOrder := .little, maxValueSize := 8 } = .ok eightBytes ∧
      eightBytes.Refuses Schema.shipment (Schema.shipmentOf 0xFFFE 7 none) (.oversizedValue 11) ∧
      eightBytes.Refuses Schema.sample (Schema.sampleOf 1 none 2) .noValue ∧
      eightBytes.toBytes Schema.sample (Schema.sampleOf 1 (some 5) 2) =
        .ok [1, 0, 5, 0, 0, 0, 2] ∧
      ∀ source : ThrottledSource, eightBytes.read Schema.sample source
          (Schema.sampleOf 1 (some 5) 2) =
        Schema.sample.read .little source (Schema.sampleOf 1 (some 5) 2) := by
  obtain ⟨hconfig, -, hvalues, -, -⟩ := guards eightBytes
  have hlarge := (hvalues Schema.shipment (Schema.shipmentOf 0xFFFE 7 none)).1 11 rfl (by decide)
  have habsent := (hvalues Schema.sample (Schema.sampleOf 1 none 2)).2.1 .noValue rfl
  have hallowed := (hvalues Schema.sample (Schema.sampleOf 1 (some 5) 2)).2.2 7 rfl (by decide)
  exact ⟨(hconfig _).2 rfl, hlarge, habsent, hallowed.toBytes.trans rfl, hallowed.read⟩

end Codec

end ByteExact
