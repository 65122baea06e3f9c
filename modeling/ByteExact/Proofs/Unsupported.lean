import ByteExact.Proofs.Defect
import ByteExact.Proofs.Encoding
import ByteExact.Proofs.Refusal
/-!
# Unsupported types

A schema with a defect has no values that can be moved: sizing refuses all of them, and every other
operation sizes its value first. The refusal is the one of an unsupported type and names the first
defect, unless something else is met on the way. A schema without defects is never refused for its
type, neither by sizing nor by what comes after it.

Results:
* `blameless_size`, `blameless_toBytes`, `blameless_write`, `blameless_fromBytes`, `blameless_read`:
  without defects, no type is refused.
* `refused_of_defects`: what defects mean for each operation.
-/
namespace ByteExact

/-- The answer is not the refusal of a type. -/
def Blameless {α : Type} (answer : Except Error α) : Prop :=
  ∀ text, answer ≠ .error (.unsupportedType text)

theorem blameless_ok {α : Type} (a : α) : Blameless (.ok a : Except Error α) := nofun

theorem blameless_io {α : Type} (fault : IoFault) :
    Blameless (.error (.io fault) : Except Error α) :=
  nofun

theorem blameless_argument {α : Type} (fault : ArgumentFault) :
    Blameless (.error (.invalidArgument fault) : Except Error α) :=
  nofun

theorem Blameless.error {α β : Type} {e : Error} (h : Blameless (.error e : Except Error α)) :
    Blameless (.error e : Except Error β) := by
  intro text hb
  cases hb
  exact h text rfl

theorem Blameless.andThen {σ α β : Type} {a : Attempt σ α} {next : α → σ → Attempt σ β}
    (h₁ : Blameless a.result) (h₂ : ∀ x s, Blameless (next x s).result) :
    Blameless (a.andThen next).result := by
  obtain ⟨result, s⟩ := a
  cases result with
  | ok x => exact h₂ x s
  | error e => exact h₁.error

theorem Blameless.guarded {σ α β : Type} {checked : Except Error α} {s : σ}
    {next : α → Attempt σ β} (h₁ : Blameless checked)
    (h₂ : ∀ x, checked = .ok x → Blameless (next x).result) :
    Blameless (Attempt.guarded checked s next).result := by
  cases checked with
  | ok x => exact h₂ x rfl
  | error e => exact h₁.error

/-- A sink refuses what it is offered with a failure of its own. -/
theorem blameless_writeAll {σ : Type} [Sink σ] (sink : σ) (bs : List UInt8) :
    Blameless (Sink.writeAll sink bs).result := by
  fun_induction Sink.writeAll sink bs with
  | case1 => exact blameless_ok ()
  | case2 => exact blameless_io _
  | case3 _ _ _ _ _ _ _ ih => exact ih
  | case4 _ _ _ _ _ _ ih => exact ih
  | case5 => exact blameless_io _

theorem blameless_readExact {σ : Type} [Source σ] (source : σ) (n : Nat) :
    Blameless (Source.readExact source n).result := by
  rcases Nat.lt_or_ge (Source.pending source).length n with h | h
  · obtain ⟨source', hread⟩ := Source.readExact_of_lt source n h
    rw [hread]
    exact blameless_io _
  · obtain ⟨source', hread, -⟩ := Source.readExact_of_le source n h
    rw [hread]
    exact blameless_ok _

namespace Schema

/-! ## Without defects -/

variable {s : Schema}

theorem blameless_size (hd : s.layout.defects = []) (v : s.Value) : Blameless (s.size v) := by
  have hi := inspection_size s v
  rw [hd] at hi
  intro text hb
  rw [hb] at hi
  cases hi with
  | named first _ => cases first

theorem blameless_targetSize (hd : s.layout.defects = []) (t : s.Value) :
    Blameless (s.targetSize t) := by
  unfold targetSize
  split
  · exact blameless_size hd t
  · exact blameless_argument _

theorem toBytes_of_size_error {v : s.Value} {e : Error} (order : ByteOrder)
    (h : s.size v = .error e) : s.toBytes order v = .error e := by
  rw [toBytes, h]
  rfl

theorem blameless_toBytes (hd : s.layout.defects = []) (order : ByteOrder) (v : s.Value) :
    Blameless (s.toBytes order v) := by
  cases hsize : s.size v with
  | error e =>
    have hb := blameless_size hd v
    rw [hsize] at hb
    rw [toBytes_of_size_error order hsize]
    exact hb.error
  | ok n =>
    rw [toBytes_of_size order hsize]
    split
    · exact blameless_argument _
    · exact blameless_ok _

theorem blameless_write {σ : Type} [Sink σ] (hd : s.layout.defects = []) (order : ByteOrder)
    (v : s.Value) (sink : σ) : Blameless (s.write order v sink).result :=
  (blameless_toBytes hd order v).guarded fun bs _ => blameless_writeAll sink bs

theorem blameless_fromBytes (hd : s.layout.defects = []) (order : ByteOrder) (data : List UInt8)
    (t : s.Value) : Blameless (s.fromBytes order data t).result := by
  refine (blameless_targetSize hd t).guarded fun n hn => ?_
  rcases Nat.lt_or_ge data.length n with hshort | henough
  · rw [if_pos hshort]
    exact blameless_io _
  · have hr := result_fromBytes_of_size order hn henough
    rw [Schema.fromBytes, hn, Attempt.guarded_ok] at hr
    rw [hr]
    cases s.obstacle t with
    | none => exact blameless_ok n
    | some fault => exact blameless_argument fault

theorem blameless_read {σ : Type} [Source σ] (hd : s.layout.defects = []) (order : ByteOrder)
    (source : σ) (t : s.Value) : Blameless (s.read order source t).result := by
  refine (blameless_targetSize hd t).guarded fun n _ => ?_
  refine Blameless.andThen (blameless_readExact source n) fun data state => ?_
  exact Blameless.andThen (blameless_fromBytes hd order data state.1) fun _ _ => blameless_ok ()

/-! ## With defects -/

theorem exists_error_of_defects (hd : s.layout.defects ≠ []) (v : s.Value) :
    ∃ e, s.size v = .error e := by
  cases hsize : s.size v with
  | error e => exact ⟨e, rfl⟩
  | ok n => exact (hd (defects_of_size hsize)).elim

theorem targetSize_of_size_error {v : s.Value} {e : Error} (h : s.size v = .error e) :
    s.targetSize v = .error (if s.isWritable then e else .notWritable) := by
  unfold targetSize
  split
  · exact h
  · rfl

/-- **Unsupported types.** A schema with a defect is refused by every operation, for every value and
with nothing written, read or filled. The refusal names the first defect, unless something absent or
a width that does not fit is met ahead of it. A schema without defects is never refused for its
type. -/
theorem refused_of_defects (order : ByteOrder) (s : Schema) (v : s.Value) :
    (s.layout.defects ≠ [] →
        ∃ e, s.size v = .error e ∧ s.toBytes order v = .error e ∧
          (∀ {σ : Type} [Sink σ] (sink : σ), s.write order v sink = .fail e sink) ∧
          s.RefusedAtOnce order v (if s.isWritable then e else .notWritable) ∧
          (s.hasAbsent v = false → e ≠ Size.overflow →
            ∃ defect text, s.layout.defects.head? = some defect ∧ defect.NamedBy text ∧
              e = .unsupportedType text)) ∧
      (∀ name, .unsupported name ∈ s.layout.defects → name = "isize" ∨ name = "usize") ∧
      (s.layout.defects = [] →
        Blameless (s.size v) ∧ Blameless (s.toBytes order v) ∧
          (∀ {σ : Type} [Sink σ] (sink : σ), Blameless (s.write order v sink).result) ∧
          (∀ data, Blameless (s.fromBytes order data v).result) ∧
          ∀ {σ : Type} [Source σ] (source : σ), Blameless (s.read order source v).result) := by
  refine ⟨?_, ?_, ?_⟩
  · intro hd
    obtain ⟨e, hsize⟩ := exists_error_of_defects hd v
    have hbytes := toBytes_of_size_error order hsize
    refine ⟨e, hsize, hbytes, ?_, ?_, ?_⟩
    · intro σ _ sink
      rw [Schema.write, hbytes, Attempt.guarded_error]
    · exact refusedAtOnce_of_targetSize order (targetSize_of_size_error hsize)
    · intro ha hne
      have hi := inspection_size s v
      rw [hsize, ha] at hi
      cases hi with
      | named first names => exact ⟨_, _, first, names, rfl⟩
      | absent met => cases met
      | overflow => exact (hne rfl).elim
  · intro name hname
    obtain ⟨kind, rfl⟩ := machine_of_unsupported s hname
    cases kind
    · exact .inl rfl
    · exact .inr rfl
  · intro hd
    exact ⟨blameless_size hd v, blameless_toBytes hd order v,
      fun sink => blameless_write hd order v sink, fun data => blameless_fromBytes hd order data v,
      fun source => blameless_read hd order source v⟩

/-- A record with two defects in the elements of one of its fields. -/
def ledger : Schema :=
  .record "Ledger" (.named "id" (.scalar .uint16) (.named "rows" (.run .growable (.record "Row"
    (.blank (.run .growable (.scalar .uint8)) (.named "count" (.machine .unsigned) .nil)))) .nil))

def ledgerOf (id : Word 2) : ledger.Value := (id, ⟨[], trivial⟩, ())

/-- A ledger without rows is refused for the blank field that a row would have. -/
theorem refused_ledger :
    ledger.layout.defects ≠ [] ∧
      ledger.size (ledgerOf 1) = .error (.unsupportedType "blank [u8]") ∧
      ledger.RefusedAtOnce .big (ledgerOf 1) (.unsupportedType "blank [u8]") := by
  have hd : ledger.layout.defects ≠ [] := nofun
  obtain ⟨e, hsize, -, -, hrefused, hnamed⟩ := (refused_of_defects .big ledger (ledgerOf 1)).1 hd
  have hne : e ≠ Size.overflow := by
    rintro rfl
    cases hsize
  obtain ⟨defect, text, hfirst, hnames, rfl⟩ := hnamed rfl hne
  cases hfirst
  have htext : text = "blank [u8]" := hnames
  rw [htext] at hsize hrefused
  exact ⟨hd, hsize, hrefused⟩

end Schema

end ByteExact
