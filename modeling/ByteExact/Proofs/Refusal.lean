import ByteExact.Proofs.Delivery
import ByteExact.Proofs.Outcome
import ByteExact.Stream.Throttled
/-!
# Refusals

A target that cannot be filled is refused in one of two ways: at once, before a byte is read, or
midway, by the decoder, when the bytes are gone from the source and the pieces ahead of the obstacle
are filled. Which of them it is hangs on whether the check ahead of decoding sees the obstacle. It
does not see what is absent inside a run whose elements have a fixed layout, nor a shared reference
inside a record or a run.

Results:
* `refusedAtOnce_of_targetSize`: what the check ahead of decoding refuses is refused at once.
* `refusedMidway_of_obstacle`: what passes the check and has an obstacle is refused midway.
* `size_eq_of_fits`: which absent values are refused at once.
* `refused_of_holdsShared`: which shared references are refused at once.
-/
namespace ByteExact.Schema

/-- Decoding fails with `e` whatever the bytes, with nothing read and nothing filled. -/
structure RefusedAtOnce (s : Schema) (order : ByteOrder) (t : s.Value) (e : Error) : Prop where
  fromBytes : ∀ data, s.fromBytes order data t = .fail e t
  read : ∀ {σ : Type} [Source σ] (source : σ), s.read order source t = .fail e (t, source)

/-- Decoding asks for `n` bytes, fills the first few pieces from them, and fails with `e`. Too few
bytes are reported before that. -/
structure RefusedMidway (s : Schema) (order : ByteOrder) (t : s.Value) (n : Nat) (e : Error) :
    Prop where
  fromBytes_short : ∀ data, data.length < n →
    s.fromBytes order data t = .fail (.shortRead n data.length) t
  fromBytes : ∀ data, n ≤ data.length →
    ∃ ps rest t', s.fromBytes order data t = .fail e t' ∧
      s.FilledFirst order (data.take n) ps rest t t'
  read_short : ∀ {σ : Type} [Source σ] (source : σ), (Source.pending source).length < n →
    ∃ source', s.read order source t =
      .fail (.io ((Source.ending source).getD .sourceEnded)) (t, source')
  read : ∀ {σ : Type} [Source σ] (source : σ), n ≤ (Source.pending source).length →
    ∃ ps rest t' source', s.read order source t = .fail e (t', source') ∧
      s.FilledFirst order ((Source.pending source).take n) ps rest t t' ∧
      Source.pending source' = (Source.pending source).drop n

/-! ## The check ahead of decoding, and the decoder -/

theorem refusedAtOnce_of_targetSize {s : Schema} {t : s.Value} {e : Error} (order : ByteOrder)
    (h : s.targetSize t = .error e) : s.RefusedAtOnce order t e where
  fromBytes data := by rw [Schema.fromBytes, h, Attempt.guarded_error]
  read source := by rw [Schema.read, h, Attempt.guarded_error]

theorem fromBytes_of_obstacle {s : Schema} {t : s.Value} {n : Nat} {fault : ArgumentFault}
    (order : ByteOrder) {data : List UInt8} (h : s.targetSize t = .ok n)
    (ho : s.obstacle t = some fault) (hd : n ≤ data.length) :
    ∃ ps rest t', s.fromBytes order data t = .fail (.invalidArgument fault) t' ∧
      s.FilledFirst order (data.take n) ps rest t t' := by
  have hr := result_decode_of_size order (targetSize_eq_ok_iff.1 h).2 hd
  rw [ho] at hr
  obtain ⟨ps, rest, ht, ht', -⟩ := (fills_decode s t ⟨order, data.take n⟩).exists_first
  refine ⟨ps, rest, _, ?_, ⟨sameShape_decode s t _, ht, ht'⟩⟩
  rw [Schema.fromBytes, h, Attempt.guarded_ok, if_neg (Nat.not_lt.2 hd), Attempt.andThen, hr]
  rfl

theorem read_of_le {σ : Type} [Source σ] {s : Schema} {t : s.Value} {n : Nat} (order : ByteOrder)
    (source : σ) (h : s.targetSize t = .ok n) (hn : n ≤ (Source.pending source).length) :
    ∃ source', Source.pending source' = (Source.pending source).drop n ∧
      s.read order source t =
        ((s.fromBytes order ((Source.pending source).take n) t).mapState (·, source')).andThen
          fun _ state => .done () state := by
  obtain ⟨source', hread, hpending, -⟩ := Source.readExact_of_le source n hn
  refine ⟨source', hpending, ?_⟩
  rw [Schema.read, h, Attempt.guarded_ok, hread]
  rfl

theorem read_of_lt {σ : Type} [Source σ] {s : Schema} {t : s.Value} {n : Nat} (order : ByteOrder)
    (source : σ) (h : s.targetSize t = .ok n) (hn : (Source.pending source).length < n) :
    ∃ source', s.read order source t =
      .fail (.io ((Source.ending source).getD .sourceEnded)) (t, source') := by
  obtain ⟨source', hread⟩ := Source.readExact_of_lt source n hn
  refine ⟨source', ?_⟩
  rw [Schema.read, h, Attempt.guarded_ok, hread]
  rfl

theorem refusedMidway_of_obstacle {s : Schema} {t : s.Value} {n : Nat} {fault : ArgumentFault}
    (order : ByteOrder) (h : s.targetSize t = .ok n) (ho : s.obstacle t = some fault) :
    s.RefusedMidway order t n (.invalidArgument fault) where
  fromBytes_short data hd := fromBytes_of_lt order h hd
  fromBytes data hd := fromBytes_of_obstacle order h ho hd
  read_short source hn := read_of_lt order source h hn
  read source hn := by
    obtain ⟨source', hpending, hread⟩ := read_of_le order source h hn
    have hlength : n ≤ ((Source.pending source).take n).length := by
      rw [List.length_take]
      omega
    obtain ⟨ps, rest, t', hfail, hfilled⟩ := fromBytes_of_obstacle order h ho hlength
    rw [List.take_take, Nat.min_self] at hfilled
    refine ⟨ps, rest, t', source', ?_, hfilled, hpending⟩
    rw [hread, hfail]
    rfl

theorem exists_obstacle {s : Schema} {t : s.Value}
    (h : s.hasAbsent t = true ∨ s.holdsShared t = true) : ∃ fault, s.obstacle t = some fault := by
  rw [← Option.ne_none_iff_exists', Ne, obstacle_eq_none_iff]
  rintro ⟨ha, hs⟩
  rw [ha, hs] at h
  simp at h

/-! ## Absent values -/

/-- **What sizing sees of absence.** Where no width overflows, a value has its span for a size
unless sizing comes across something absent, and then decoding into it is refused at once. Behind a
run of elements of a fixed layout sizing comes across nothing: what is absent there is met by the
decoder. -/
theorem size_eq_of_fits (order : ByteOrder) (s : Schema) (t : s.Value) (w : Option Nat)
    (hw : s.layout.staticWidth = .ok w) (fits : s.span t < Size.bound) :
    s.size t = (if s.showsAbsent t then .error .noValue else .ok (s.span t)) ∧
      (s.isWritable = true → s.showsAbsent t = true → s.RefusedAtOnce order t .noValue) ∧
      (s.isWritable = true → s.showsAbsent t = false → s.hasAbsent t = true →
        ∃ fault, s.obstacle t = some fault ∧ (s.holdsShared t = false → fault = .noValue) ∧
          s.RefusedMidway order t (s.span t) (.invalidArgument fault)) := by
  have hsize := (size_outcome s w hw t).eq_of_lt fits
  refine ⟨hsize, ?_, ?_⟩
  · intro hwritable hshow
    refine refusedAtOnce_of_targetSize order ?_
    rw [targetSize, if_pos hwritable, hsize, if_pos hshow]
  · intro hwritable hshow habsent
    obtain ⟨fault, ho⟩ := exists_obstacle (.inl habsent)
    refine ⟨fault, ho, ?_, refusedMidway_of_obstacle order ?_ ho⟩
    · intro hs
      rcases fault_of_obstacle s t ho with ⟨hf, -⟩ | ⟨-, hs'⟩
      · exact hf
      · rw [hs] at hs'
        cases hs'
    · rw [targetSize, if_pos hwritable, hsize, if_neg (by rw [hshow]; exact Bool.false_ne_true)]

/-- A sequence of values that may be absent, each one byte wide. -/
def readings : Schema := .run .growable (.optional (.scalar .uint8))

def readingsOf (values : List (Option (Word 1))) : readings.Value := ⟨values, trivial⟩

/-- A record with a value that may be absent between two numbers. -/
def sample : Schema :=
  .record "Sample" (.named "id" (.scalar .uint16) (.named "weight" (.optional (.scalar .uint32))
    (.named "kind" (.scalar .uint8) .nil)))

def sampleOf (id : Word 2) (weight : Option (Word 4)) (kind : Word 1) : sample.Value :=
  (id, weight, kind, ())

/-- A record without its weight is refused at once; a sequence without one of its values is refused
midway. -/
theorem size_eq_of_fits_sample :
    sample.size (sampleOf 1 none 2) = .error .noValue ∧
      sample.RefusedAtOnce .big (sampleOf 1 none 2) .noValue ∧
      readings.size (readingsOf [some 1, none, some 2]) = .ok 3 ∧
      ∃ fault, fault = .noValue ∧
        readings.RefusedMidway .big (readingsOf [some 1, none, some 2]) 3
          (.invalidArgument fault) := by
  have hsample := size_eq_of_fits .big sample (sampleOf 1 none 2) (some 7) rfl (by decide)
  have hreadings :=
    size_eq_of_fits .big readings (readingsOf [some 1, none, some 2]) none rfl (by decide)
  obtain ⟨fault, -, hfault, hmidway⟩ := hreadings.2.2 rfl rfl rfl
  exact ⟨hsample.1, hsample.2.1 rfl rfl, hreadings.1, fault, hfault rfl, hmidway⟩

/-- A sequence of supported elements that fits, is writable and has an absent value in it, and yet
has a size: decoding fills the value ahead of the absent one, and reading has taken three bytes from
the source by then. -/
theorem size_readings_of_absent :
    readings.layout.staticWidth = .ok none ∧ readings.isWritable = true ∧
      readings.hasAbsent (readingsOf [some 1, none, some 2]) = true ∧
      readings.size (readingsOf [some 1, none, some 2]) = .ok 3 ∧
      readings.fromBytes .big [10, 11, 12] (readingsOf [some 1, none, some 2]) =
        .fail .noValue (readingsOf [some 10, none, some 2]) ∧
      ∃ source' : ThrottledSource,
        readings.read .big ({ data := [10, 11, 12, 13] } : ThrottledSource)
            (readingsOf [some 1, none, some 2]) =
          .fail .noValue (readingsOf [some 10, none, some 2], source') ∧
        Source.pending source' = [13] := by
  refine ⟨rfl, rfl, rfl, rfl, rfl, ?_⟩
  have hsize : readings.targetSize (readingsOf [some 1, none, some 2]) = .ok 3 := rfl
  obtain ⟨source', hpending, hread⟩ :=
    read_of_le .big ({ data := [10, 11, 12, 13] } : ThrottledSource) hsize (by decide)
  exact ⟨source', hread, hpending⟩

/-! ## Shared references -/

theorem isWritable_of_checkTarget {target : Schema} (hc : checkTarget target = .ok ()) :
    target.isWritable = true := by
  rw [checkTarget_eq_ok_iff, isPointer_layout] at hc
  cases target <;> first | rfl | cases hc

theorem isWritable_eq_false_iff {s : Schema} {t : s.Value} {n : Nat} (hn : s.size t = .ok n) :
    s.isWritable = false ↔ ∃ target, s = .ref .shared target := by
  cases s with
  | ref form target =>
    obtain ⟨_, hc, -⟩ := bind_eq_ok_iff.1 hn
    have hw := isWritable_of_checkTarget hc
    cases form <;> simp [isWritable, RefForm.isWritable, hw]
  | optional target =>
    obtain ⟨_, hc, -⟩ := bind_eq_ok_iff.1 hn
    have hw := isWritable_of_checkTarget hc
    simp [isWritable, hw]
  | _ => simp [isWritable]

theorem isWritable_of_holdsShared {s : Schema} {t : s.Value} {n : Nat} (hn : s.size t = .ok n)
    (hs : s.holdsShared t = false) : s.isWritable = true := by
  rw [← Bool.not_eq_false]
  intro hw
  obtain ⟨target, rfl⟩ := (isWritable_eq_false_iff hn).1 hw
  cases hs

/-- **What is seen of shared references.** A target that is one is refused at once. One that stands
inside a record or a run is not seen ahead of decoding: the decoder meets it, or something absent
ahead of it. -/
theorem refused_of_holdsShared (order : ByteOrder) (s : Schema) (t : s.Value) (n : Nat)
    (hn : s.size t = .ok n) (hs : s.holdsShared t = true) :
    (s.isWritable = false ↔ ∃ target, s = .ref .shared target) ∧
      (s.isWritable = false → s.RefusedAtOnce order t .notWritable) ∧
      (s.isWritable = true →
        ∃ fault, s.obstacle t = some fault ∧ (s.hasAbsent t = false → fault = .notWritable) ∧
          s.RefusedMidway order t n (.invalidArgument fault)) := by
  refine ⟨isWritable_eq_false_iff hn, ?_, ?_⟩
  · intro hw
    refine refusedAtOnce_of_targetSize order ?_
    rw [targetSize, if_neg (by rw [hw]; exact Bool.false_ne_true)]
  · intro hw
    obtain ⟨fault, ho⟩ := exists_obstacle (.inr hs)
    refine ⟨fault, ho, ?_, refusedMidway_of_obstacle order (targetSize_eq_ok_iff.2 ⟨hw, hn⟩) ho⟩
    intro ha
    rcases fault_of_obstacle s t ho with ⟨-, ha'⟩ | ⟨hf, -⟩
    · rw [ha] at ha'
      cases ha'
    · exact hf

/-- A record with a number behind a shared reference between two of its own. -/
def borrowing : Schema :=
  .record "Borrowing" (.named "a" (.scalar .uint16) (.named "r" (.ref .shared (.scalar .uint32))
    (.named "z" (.scalar .uint8) .nil)))

def borrowingOf (a : Word 2) (r : Word 4) (z : Word 1) : borrowing.Value := (a, r, z, ())

/-- A shared reference is refused at once, a record that holds one midway. -/
theorem refused_borrowing :
    (ref .shared (.scalar .uint32)).RefusedAtOnce .big (5 : Word 4) .notWritable ∧
      ∃ fault, fault = .notWritable ∧
        borrowing.RefusedMidway .big (borrowingOf 1 2 3) 7 (.invalidArgument fault) := by
  have hnumber :=
    refused_of_holdsShared .big (.ref .shared (.scalar .uint32)) (5 : Word 4) 4 rfl rfl
  have hborrowing := refused_of_holdsShared .big borrowing (borrowingOf 1 2 3) 7 rfl rfl
  obtain ⟨fault, -, hfault, hmidway⟩ := hborrowing.2.2 rfl
  exact ⟨hnumber.2.1 rfl, fault, hfault rfl, hmidway⟩

/-- A record with a size that holds a shared reference, and is not refused before anything happens:
its first number is filled, and reading has taken seven bytes from the source. Given too few bytes,
it is refused for these. -/
theorem fromBytes_borrowing :
    borrowing.size (borrowingOf 1 2 3) = .ok 7 ∧ borrowing.holdsShared (borrowingOf 1 2 3) = true ∧
      borrowing.fromBytes .big [10, 11, 12, 13, 14, 15, 16] (borrowingOf 1 2 3) =
        .fail .notWritable (borrowingOf 0x0A0B 2 3) ∧
      borrowing.fromBytes .big [] (borrowingOf 1 2 3) = .fail (.shortRead 7 0) (borrowingOf 1 2 3) ∧
      ∃ source' : ThrottledSource,
        borrowing.read .big ({ data := [10, 11, 12, 13, 14, 15, 16, 17] } : ThrottledSource)
            (borrowingOf 1 2 3) =
          .fail .notWritable (borrowingOf 0x0A0B 2 3, source') ∧
        Source.pending source' = [17] := by
  refine ⟨rfl, rfl, rfl, rfl, ?_⟩
  have hsize : borrowing.targetSize (borrowingOf 1 2 3) = .ok 7 := rfl
  obtain ⟨source', hpending, hread⟩ :=
    read_of_le .big ({ data := [10, 11, 12, 13, 14, 15, 16, 17] } : ThrottledSource) hsize
      (by decide)
  exact ⟨source', hread, hpending⟩

end ByteExact.Schema
