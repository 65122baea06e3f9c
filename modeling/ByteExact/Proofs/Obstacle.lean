import ByteExact.Proofs.Filling
import ByteExact.Proofs.Total
/-!
# Obstacles

An obstacle is what decoding cannot get past, however many bytes there are: something absent, or
something behind a shared reference. The first one in a value decides how decoding it ends.

Results:
* `obstacle_eq_none_iff`: a value has no obstacle if nothing in it is absent or shared.
* `fault_of_obstacle`: what the first obstacle says about the value.
* `result_decode`: over an admissible schema, decoding from bytes enough fails with the fault of the
  first obstacle, and succeeds if there is none.
* `obstacle_of_decode`: decoding succeeds only if there is none.
-/
namespace ByteExact.Schema

mutual

/-- The fault of the first obstacle, in the order in which the parts of the value are decoded. -/
def obstacle : (s : Schema) → s.Value → Option ArgumentFault
  | scalar _, _ => none
  | complex _, _ => none
  | machine _, _ => none
  | run _ element, xs => xs.val.findSome? element.obstacle
  | record _ fields, values => fields.obstacle values
  | ref form target, v => if form.isWritable then target.obstacle v else some .notWritable
  | optional target, v =>
    match v with
    | some v => target.obstacle v
    | none => some .noValue

def Fields.obstacle : (fields : Fields) → fields.Values → Option ArgumentFault
  | .nil, _ => none
  | .named _ schema rest, values => (schema.obstacle values.1).or (rest.obstacle values.2)
  | .blank _ rest, values => rest.obstacle values

end

theorem isWritable_eq (form : RefForm) : form.isWritable = !(form == .shared) := by
  cases form <;> rfl

theorem findSome?_obstacle_eq_none_iff {α : Type} {obstacle : α → Option ArgumentFault}
    {absent shared : α → Bool} (h : ∀ x, obstacle x = none ↔ absent x = false ∧ shared x = false)
    (xs : List α) :
    xs.findSome? obstacle = none ↔ xs.any absent = false ∧ xs.any shared = false := by
  simp only [List.findSome?_eq_none_iff, List.any_eq_false, Bool.not_eq_true, h, forall_and]

mutual

theorem obstacle_eq_none_iff : (s : Schema) → (v : s.Value) →
    (s.obstacle v = none ↔ s.hasAbsent v = false ∧ s.holdsShared v = false)
  | scalar _, _ => ⟨fun _ => ⟨rfl, rfl⟩, fun _ => rfl⟩
  | complex _, _ => ⟨fun _ => ⟨rfl, rfl⟩, fun _ => rfl⟩
  | machine _, _ => ⟨fun _ => ⟨rfl, rfl⟩, fun _ => rfl⟩
  | run _ element, xs => findSome?_obstacle_eq_none_iff (obstacle_eq_none_iff element) xs.val
  | record _ fields, values => Fields.obstacle_eq_none_iff fields values
  | ref form target, v => by
    have ih := obstacle_eq_none_iff target v
    rw [obstacle, hasAbsent, holdsShared, isWritable_eq]
    cases form == .shared <;> simp [ih]
  | optional target, none => ⟨nofun, nofun⟩
  | optional target, some v => obstacle_eq_none_iff target v

theorem Fields.obstacle_eq_none_iff : (fields : Fields) → (values : fields.Values) →
    (fields.obstacle values = none ↔
      fields.hasAbsent values = false ∧ fields.holdsShared values = false)
  | .nil, _ => ⟨fun _ => ⟨rfl, rfl⟩, fun _ => rfl⟩
  | .named _ schema rest, values => by
    have hv := Schema.obstacle_eq_none_iff schema values.1
    have hr := Fields.obstacle_eq_none_iff rest values.2
    rw [Fields.obstacle, Fields.hasAbsent, Fields.holdsShared, Option.or_eq_none_iff, hv, hr,
      Bool.or_eq_false_iff, Bool.or_eq_false_iff]
    exact and_and_and_comm
  | .blank _ rest, values => Fields.obstacle_eq_none_iff rest values

end

theorem findSome?_congr {α β : Type} {f : α → Option β} {xs ys : List α}
    (h : List.Forall₂ (fun x y => f x = f y) xs ys) : xs.findSome? f = ys.findSome? f := by
  induction h with
  | nil => rfl
  | cons hxy _ ih => rw [List.findSome?_cons, List.findSome?_cons, hxy, ih]

mutual

theorem obstacle_eq_of_sameShape : (s : Schema) → (a b : s.Value) → s.SameShape a b →
    s.obstacle a = s.obstacle b
  | scalar _, _, _, _ => rfl
  | complex _, _, _, _ => rfl
  | machine _, _, _, _ => rfl
  | run _ element, _, _, h => findSome?_congr (h.imp (obstacle_eq_of_sameShape element))
  | record _ fields, a, b, h => Fields.obstacle_eq_of_sameShape fields a b h
  | ref _ target, a, b, h => by
    rw [obstacle, obstacle, obstacle_eq_of_sameShape target a b h]
  | optional _, none, none, _ => rfl
  | optional _, none, some _, h => h.elim
  | optional _, some _, none, h => h.elim
  | optional target, some a, some b, h => obstacle_eq_of_sameShape target a b h

theorem Fields.obstacle_eq_of_sameShape : (fields : Fields) → (a b : fields.Values) →
    fields.SameShape a b → fields.obstacle a = fields.obstacle b
  | .nil, _, _, _ => rfl
  | .named _ schema rest, a, b, h => by
    rw [Fields.obstacle, Fields.obstacle, Schema.obstacle_eq_of_sameShape schema a.1 b.1 h.1,
      Fields.obstacle_eq_of_sameShape rest a.2 b.2 h.2]
  | .blank _ rest, a, b, h => Fields.obstacle_eq_of_sameShape rest a b h

end

/-- A fault that is met in a value is explained by what the value holds. -/
def Explains (absent shared : Bool) (fault : ArgumentFault) : Prop :=
  fault = .noValue ∧ absent = true ∨ fault = .notWritable ∧ shared = true

theorem Explains.mono {absent absent' shared shared' : Bool} {fault : ArgumentFault}
    (h : Explains absent shared fault) (ha : absent = true → absent' = true)
    (hs : shared = true → shared' = true) : Explains absent' shared' fault :=
  h.imp (And.imp_right ha) (And.imp_right hs)

mutual

theorem fault_of_obstacle : (s : Schema) → (v : s.Value) → {fault : ArgumentFault} →
    s.obstacle v = some fault → Explains (s.hasAbsent v) (s.holdsShared v) fault
  | scalar _, _, _, h => by cases h
  | complex _, _, _, h => by cases h
  | machine _, _, _, h => by cases h
  | run _ element, xs, fault, h => by
    obtain ⟨x, hx, hf⟩ := List.exists_of_findSome?_eq_some h
    exact (fault_of_obstacle element x hf).mono (fun ha => List.any_eq_true.2 ⟨x, hx, ha⟩)
      fun hs => List.any_eq_true.2 ⟨x, hx, hs⟩
  | record _ fields, values, _, h => Fields.fault_of_obstacle fields values h
  | ref form target, v, fault, h => by
    rw [obstacle] at h
    split at h
    · refine (fault_of_obstacle target v h).mono id ?_
      intro hs
      rw [holdsShared, hs, Bool.or_true]
    · rename_i hw
      cases h
      refine .inr ⟨rfl, ?_⟩
      rw [isWritable_eq, Bool.not_eq_true, Bool.not_eq_false'] at hw
      rw [holdsShared, hw, Bool.true_or]
  | optional _, none, _, h => by
    cases h
    exact .inl ⟨rfl, rfl⟩
  | optional target, some v, _, h => fault_of_obstacle target v h

theorem Fields.fault_of_obstacle : (fields : Fields) → (values : fields.Values) →
    {fault : ArgumentFault} → fields.obstacle values = some fault →
    Explains (fields.hasAbsent values) (fields.holdsShared values) fault
  | .nil, _, _, h => by cases h
  | .named _ schema rest, values, fault, h => by
    rcases Option.or_eq_some_iff.1 h with h | ⟨-, h⟩
    · exact (Schema.fault_of_obstacle schema values.1 h).mono
        (fun ha => Bool.or_eq_true_iff.2 (.inl ha)) fun hs => Bool.or_eq_true_iff.2 (.inl hs)
    · exact (Fields.fault_of_obstacle rest values.2 h).mono
        (fun ha => Bool.or_eq_true_iff.2 (.inr ha)) fun hs => Bool.or_eq_true_iff.2 (.inr hs)
  | .blank _ rest, values, _, h => Fields.fault_of_obstacle rest values h

end

/-! ## How decoding ends -/

/-- A first part that fits is filled, and leaves the decoder the bytes behind it. -/
theorem remaining_of_decode {s : Schema} {t : s.Value} {d : Decoder}
    (h : (s.decode t d).result = .ok ()) :
    (s.decode t d).state.2.remaining = d.remaining - Piece.total (s.pieces t) := by
  rw [(state_of_decode h).1, Decoder.remaining_advance]

/-- How decoding ends, given the fault of the first obstacle, if there is one. -/
def verdict : Option ArgumentFault → Except Error Unit
  | none => .ok ()
  | some fault => .error (.invalidArgument fault)

theorem result_decodeEach {α : Type} {decode : α → Decoder → Attempt (α × Decoder) Unit}
    {pieces : α → List Piece} {obstacle : α → Option ArgumentFault}
    (remaining : ∀ x (d : Decoder), (decode x d).result = .ok () →
      (decode x d).state.2.remaining = d.remaining - Piece.total (pieces x))
    (h : ∀ x (d : Decoder), Piece.total (pieces x) ≤ d.remaining →
      (decode x d).result = verdict (obstacle x))
    (xs : List α) {d : Decoder} (hd : Piece.total (xs.flatMap pieces) ≤ d.remaining) :
    (decodeEach decode xs d).result = verdict (xs.findSome? obstacle) := by
  induction xs generalizing d with
  | nil => rfl
  | cons x xs ih =>
    rw [List.flatMap_cons, Piece.total_append] at hd
    have hx := h x d (by omega)
    rw [decodeEach, List.findSome?_cons]
    cases ho : obstacle x with
    | some fault =>
      rw [ho] at hx
      simp only [hx, verdict]
      rfl
    | none =>
      rw [ho] at hx
      have hrest := remaining x d hx
      simp only [hx, verdict]
      exact ih (by omega)

theorem total_flatMap_number (kind : Scalar) (xs : List (Word kind.width)) :
    Piece.total (xs.flatMap (pieces (.scalar kind))) = xs.length * kind.width := by
  rw [Nat.mul_comm]
  exact total_flatMap_of_const _ _ _ fun _ => rfl

theorem findSome?_scalar (kind : Scalar) (xs : List (Word kind.width)) :
    xs.findSome? (obstacle (.scalar kind)) = none :=
  List.findSome?_eq_none_iff.2 fun _ _ => rfl

theorem result_decodeRun (element : Schema)
    (h : ∀ x (d : Decoder), Piece.total (element.pieces x) ≤ d.remaining →
      (element.decode x d).result = verdict (element.obstacle x))
    (xs : List element.Value) {d : Decoder}
    (hd : Piece.total (xs.flatMap element.pieces) ≤ d.remaining) :
    (decodeRun element element.decode xs d).result = verdict (xs.findSome? element.obstacle) := by
  cases element with
  | scalar kind =>
    rw [total_flatMap_number kind xs] at hd
    rw [findSome?_scalar kind xs]
    exact congrArg Attempt.result (@Decoder.fillWords_of_le d kind.width xs hd)
  | _ => exact result_decodeEach (fun _ _ => remaining_of_decode) h xs hd

theorem result_decodeComplex (precision : Precision)
    (t : Word precision.width × Word precision.width) {d : Decoder}
    (hd : precision.width + precision.width ≤ d.remaining) :
    (decodeComplex precision.width t d).result = .ok () := by
  have hre := Decoder.fillWord_of_le (d := d) (w := precision.width) (by omega) t.1
  have hrest : precision.width ≤ (d.advance precision.width).remaining := by
    rw [Decoder.remaining_advance]
    omega
  rw [decodeComplex, hre]
  exact congrArg Attempt.result (Decoder.fillWord_of_le hrest t.2)

mutual

theorem result_decode : (s : Schema) → s.Admissible → (t : s.Value) → (d : Decoder) →
    Piece.total (s.pieces t) ≤ d.remaining → (s.decode t d).result = verdict (s.obstacle t)
  | scalar kind, _, t, d, hd => by
    have hw : kind.width ≤ d.remaining := hd
    exact congrArg Attempt.result (Decoder.fillWord_of_le hw (t : Word kind.width))
  | complex precision, _, t, d, hd => by
    have hw : precision.width + (precision.width + 0) ≤ d.remaining := hd
    exact result_decodeComplex precision t (by omega)
  | machine _, hs, _, _, _ => hs.elim
  | run _ element, hs, xs, d, hd => result_decodeRun element (result_decode element hs) xs.val hd
  | record _ fields, hs, values, d, hd => Fields.result_decode fields hs values d hd
  | ref form target, hs, t, d, hd => by
    rw [decode, obstacle]
    cases form.isWritable with
    | false => rfl
    | true =>
      rw [if_pos rfl, if_pos rfl, hs.1]
      exact result_decode target hs.2 t d hd
  | optional target, hs, none, d, _ => by
    rw [decode, hs.1]
    rfl
  | optional target, hs, some t, d, hd => by
    rw [decode, hs.1]
    exact result_decode target hs.2 t d hd

theorem Fields.result_decode : (fields : Fields) → fields.Admissible → (values : fields.Values) →
    (d : Decoder) → Piece.total (fields.pieces values) ≤ d.remaining →
    (fields.decode values d).result = verdict (fields.obstacle values)
  | .nil, _, _, _, _ => rfl
  | .named _ schema rest, hs, values, d, hd => by
    rw [Fields.pieces, Piece.total_append] at hd
    have hv := Schema.result_decode schema hs.1 values.1 d (by omega)
    rw [Fields.decode, Fields.obstacle]
    cases ho : schema.obstacle values.1 with
    | some fault =>
      rw [ho] at hv
      simp only [hv, verdict]
      rfl
    | none =>
      rw [ho] at hv
      have hrest := remaining_of_decode hv
      simp only [hv, verdict]
      exact Fields.result_decode rest hs.2 values.2 _ (by omega)
  | .blank schema rest, hs, values, d, hd => by
    rw [Fields.pieces, Piece.total_cons, Piece.width] at hd
    rw [Fields.decode, hs.1, Attempt.guarded_ok, Decoder.skip_of_le (by omega)]
    refine Fields.result_decode rest hs.2 values _ ?_
    show _ ≤ (d.advance schema.layout.extent).remaining
    rw [Decoder.remaining_advance]
    omega

end

theorem findSome?_decodeEach {α : Type} {decode : α → Decoder → Attempt (α × Decoder) Unit}
    {obstacle : α → Option ArgumentFault}
    (h : ∀ x d, (decode x d).result = .ok () → obstacle x = none) {xs : List α} {d : Decoder}
    (hd : (decodeEach decode xs d).result = .ok ()) : xs.findSome? obstacle = none := by
  induction xs generalizing d with
  | nil => rfl
  | cons x xs ih =>
    rw [decodeEach] at hd
    dsimp only at hd
    split at hd
    · rename_i u hx
      rw [List.findSome?_cons, h x d hx]
      exact ih hd
    · cases hd

theorem findSome?_decodeRun (element : Schema)
    (h : ∀ x d, (element.decode x d).result = .ok () → element.obstacle x = none)
    {xs : List element.Value} {d : Decoder}
    (hd : (decodeRun element element.decode xs d).result = .ok ()) :
    xs.findSome? element.obstacle = none := by
  cases element with
  | scalar kind => exact findSome?_scalar kind xs
  | _ => exact findSome?_decodeEach h hd

mutual

theorem obstacle_of_decode : (s : Schema) → (t : s.Value) → (d : Decoder) →
    (s.decode t d).result = .ok () → s.obstacle t = none
  | scalar _, _, _, _ => rfl
  | complex _, _, _, _ => rfl
  | machine _, _, _, _ => rfl
  | run _ element, xs, d, hd => findSome?_decodeRun element (obstacle_of_decode element) hd
  | record _ fields, values, d, hd => Fields.obstacle_of_decode fields values d hd
  | ref form target, t, d, hd => by
    rw [decode] at hd
    cases hw : form.isWritable with
    | false =>
      rw [hw] at hd
      cases hd
    | true =>
      rw [hw] at hd
      rw [obstacle, hw, if_pos rfl]
      cases hc : checkTarget target with
      | error e =>
        rw [hc] at hd
        cases hd
      | ok u =>
        rw [hc] at hd
        exact obstacle_of_decode target t d hd
  | optional target, none, d, hd => by
    rw [decode] at hd
    cases hc : checkTarget target <;> rw [hc] at hd <;> cases hd
  | optional target, some t, d, hd => by
    rw [decode] at hd
    cases hc : checkTarget target with
    | error e =>
      rw [hc] at hd
      cases hd
    | ok u =>
      rw [hc] at hd
      exact obstacle_of_decode target t d hd

theorem Fields.obstacle_of_decode : (fields : Fields) → (values : fields.Values) →
    (d : Decoder) → (fields.decode values d).result = .ok () → fields.obstacle values = none
  | .nil, _, _, _ => rfl
  | .named _ schema rest, values, d, hd => by
    rw [Fields.decode] at hd
    dsimp only at hd
    split at hd
    · rename_i u hv
      rw [Fields.obstacle, Schema.obstacle_of_decode schema values.1 d hv,
        Fields.obstacle_of_decode rest values.2 _ hd]
      rfl
    · cases hd
  | .blank schema rest, values, d, hd => by
    rw [Fields.decode] at hd
    cases hb : schema.layout.blankWidth with
    | error e =>
      rw [hb] at hd
      cases hd
    | ok width =>
      rw [hb, Attempt.guarded_ok] at hd
      dsimp only at hd
      split at hd
      · exact Fields.obstacle_of_decode rest values _ hd
      · cases hd

end

theorem hasAbsent_of_decode (s : Schema) (t : s.Value) (d : Decoder)
    (h : (s.decode t d).result = .ok ()) : s.hasAbsent t = false :=
  ((obstacle_eq_none_iff s t).1 (obstacle_of_decode s t d h)).1

end ByteExact.Schema
