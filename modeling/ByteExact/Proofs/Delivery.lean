import ByteExact.Stream.Source
/-!
# Delivery

A source cuts what it delivers as it likes, and may be interrupted. What arrives does not depend on
that.

Results:
* `readExact_of_le`: a source with bytes enough pending delivers the first of them, and keeps the
  rest.
* `readExact_of_lt`: a source with too few bytes pending fails in the way in which it ends.
* `takes_readExact`: whatever the source does, no more is taken from it than was asked for.
-/
namespace ByteExact.Source

theorem readExact_of_le {σ : Type} [Source σ] (s : σ) (n : Nat) (h : n ≤ (pending s).length) :
    ∃ s', readExact s n = .done ((pending s).take n) s' ∧ pending s' = (pending s).drop n ∧
      ending s' = ending s := by
  fun_induction readExact s n with
  | case1 s => exact ⟨s, rfl, rfl, rfl⟩
  | case2 s n hn s' hpull =>
    have hnil : pending s = [] := ((of_delivered hpull (Nat.pos_of_ne_zero hn)).2.2.2 rfl).1
    rw [hnil, List.length_nil] at h
    omega
  | case3 s n hn b bs s' hpull fewer ih =>
    obtain ⟨hle, hpending, hending, -⟩ := of_delivered hpull (Nat.pos_of_ne_zero hn)
    rw [hpending, List.length_append] at h
    obtain ⟨s'', hread, hrest, hend⟩ := ih (by omega)
    refine ⟨s'', ?_, ?_, hend.trans hending⟩
    · rw [hread, Attempt.andThen_done, hpending, List.take_append, List.take_of_length_le hle]
    · rw [hrest, hpending, List.drop_append, List.drop_of_length_le hle, List.nil_append]
  | case4 s n hn s' hpull calmer ih =>
    obtain ⟨hpending, hending, -⟩ := of_interrupted hpull
    rw [← hpending, ← hending]
    exact ih (by rw [hpending]; exact h)
  | case5 s n hn fault s' hpull =>
    have hnil : pending s = [] := (of_failed hpull).1
    rw [hnil, List.length_nil] at h
    omega

/-- Nothing is said about the state behind it: a source may do as it likes after a failure. -/
theorem readExact_of_lt {σ : Type} [Source σ] (s : σ) (n : Nat) (h : (pending s).length < n) :
    ∃ s', readExact s n = .fail (.io ((ending s).getD .sourceEnded)) s' := by
  fun_induction readExact s n with
  | case1 s => exact (Nat.not_lt_zero _ h).elim
  | case2 s n hn s' hpull =>
    have hend : ending s = none := ((of_delivered hpull (Nat.pos_of_ne_zero hn)).2.2.2 rfl).2
    exact ⟨s', by rw [hend]; rfl⟩
  | case3 s n hn b bs s' hpull fewer ih =>
    obtain ⟨-, hpending, hending, -⟩ := of_delivered hpull (Nat.pos_of_ne_zero hn)
    rw [hpending, List.length_append] at h
    obtain ⟨s'', hread⟩ := ih (by omega)
    exact ⟨s'', by rw [hread, Attempt.andThen_fail, hending]⟩
  | case4 s n hn s' hpull calmer ih =>
    obtain ⟨hpending, hending, -⟩ := of_interrupted hpull
    rw [← hending]
    exact ih (by rw [hpending]; exact h)
  | case5 s n hn fault s' hpull =>
    have hend : ending s = some fault := (of_failed hpull).2
    exact ⟨s', by rw [hend]; rfl⟩

/-! ## What is taken from a source -/

/-- Calls to the source `s` that deliver `bs` in all come to the source `s'`. -/
inductive Takes {σ : Type} [Source σ] : σ → List UInt8 → σ → Prop
  | none (s : σ) : Takes s [] s
  | delivered {s s₁ s' : σ} {n : Nat} {bs rest : List UInt8}
      (reply : pull s n = (.delivered bs, s₁)) (next : Takes s₁ rest s') : Takes s (bs ++ rest) s'
  | interrupted {s s₁ s' : σ} {n : Nat} {bs : List UInt8}
      (reply : pull s n = (.interrupted, s₁)) (next : Takes s₁ bs s') : Takes s bs s'
  | failed {s s' : σ} {n : Nat} {fault : IoFault} (reply : pull s n = (.failed fault, s')) :
      Takes s [] s'

/-- Each call asks for what is still missing, and no call delivers more than it was asked for. -/
theorem takes_readExact {σ : Type} [Source σ] (s : σ) (n : Nat) :
    ∃ taken, Takes s taken (readExact s n).state ∧ taken.length ≤ n ∧
      ∀ bs, (readExact s n).result = .ok bs → bs = taken := by
  fun_induction readExact s n with
  | case1 s => exact ⟨[], .none s, Nat.le_refl 0, fun bs h => by cases h; rfl⟩
  | case2 s n hn s' hpull => exact ⟨[], .delivered hpull (.none s'), Nat.zero_le n, nofun⟩
  | case3 s n hn b bs s' hpull fewer ih =>
    obtain ⟨taken, htakes, hle, hresult⟩ := ih
    have hdelivered := (of_delivered hpull (Nat.pos_of_ne_zero hn)).1
    generalize readExact s' (n - (b :: bs).length) = a at htakes hresult
    refine ⟨b :: bs ++ taken, ?_, ?_, ?_⟩
    · obtain ⟨_ | rest, s''⟩ := a
      · exact .delivered hpull htakes
      · exact .delivered hpull htakes
    · rw [List.length_append]
      omega
    · intro all h
      obtain ⟨_ | rest, s''⟩ := a
      · cases h
      · cases h
        rw [hresult rest rfl]
  | case4 s n hn s' hpull calmer ih =>
    obtain ⟨taken, htakes, hle, hresult⟩ := ih
    exact ⟨taken, .interrupted hpull htakes, hle, hresult⟩
  | case5 s n hn fault s' hpull => exact ⟨[], .failed hpull, Nat.zero_le n, nofun⟩

end ByteExact.Source
