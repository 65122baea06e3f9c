import ByteExact.Proofs.Cell
import ByteExact.Proofs.Cursor
import ByteExact.Proofs.Shape
import ByteExact.Schema.Decode
/-!
# Filling cells

A decoder that fills a target moves along the target's cells: each piece takes the next bytes of its
own width, up to the end or to an error, and the cells behind an error are as they were. Numbers
read in bulk are all filled or none.

Results:
* `fills_decode`, `sameShape_decode`: decoding fills cells in order and keeps the shape.
* `decode_fills_first`: where decoding stops, and what it leaves.
* `state_of_decode`: what a success leaves.
-/
namespace ByteExact

namespace Decoder

theorem fillWord_of_le {d : Decoder} {w : Nat} (h : w ≤ d.remaining) (slot : Word w) :
    d.fillWord w slot = .done () (d.order.word w (d.unread.take w), d.advance w) := by
  rw [fillWord, word_of_le h]
  rfl

theorem fillWord_of_lt {d : Decoder} {w : Nat} (h : d.remaining < w) (slot : Word w) :
    d.fillWord w slot = .fail (.shortRead w d.remaining) (slot, d) := by
  rw [fillWord, word_of_lt h]
  rfl

theorem refill_take (order : ByteOrder) (w : Nat) (slots : List (Word w)) (bs : List UInt8)
    (h : slots.length * w ≤ bs.length) :
    refill order w slots (bs.take (slots.length * w)) = refill order w slots bs := by
  induction slots generalizing bs with
  | nil => rfl
  | cons slot slots ih =>
    have hw : (slots.length + 1) * w = w + slots.length * w := by rw [Nat.succ_mul, Nat.add_comm]
    rw [List.length_cons, hw] at h ⊢
    have hrest : slots.length * w ≤ (bs.drop w).length := by
      rw [List.length_drop]
      omega
    have htaken : w ≤ (bs.take (w + slots.length * w)).length := by
      rw [List.length_take_of_le h]
      exact Nat.le_add_right ..
    rw [refill_cons_of_le order htaken, refill_cons_of_le order (by omega), List.take_take,
      Nat.min_eq_left (Nat.le_add_right ..), List.drop_take, Nat.add_sub_cancel_left, ih _ hrest]

theorem fillWords_of_le {d : Decoder} {w : Nat} {slots : List (Word w)}
    (h : slots.length * w ≤ d.remaining) :
    d.fillWords w slots =
      .done () (refill d.order w slots d.unread, d.advance (slots.length * w)) := by
  rw [fillWords, take_of_le h, ← refill_take d.order w slots d.unread h]
  obtain ⟨order, unread⟩ := d
  cases order <;> rfl

theorem fillWords_of_lt {d : Decoder} {w : Nat} {slots : List (Word w)}
    (h : d.remaining < slots.length * w) :
    d.fillWords w slots = .fail (.shortRead (slots.length * w) d.remaining) (slots, d) := by
  rw [fillWords, take_of_lt h]
  rfl

end Decoder

/-- A piece that has a width: a number, or a blank field whose layout has a static width. -/
def Piece.HasWidth : Piece → Prop
  | number _ _ => True
  | padding layout => layout.staticWidth = .ok (some layout.extent)

/-- What filling cells comes to: one piece after another takes the decoder's next bytes, up to the
end or to an error, and the cells behind an error stay as they are. No bytes get past an integer of
machine width. -/
inductive Fills : Decoder → List Cell → Except Error Unit → Decoder → List Cell → Prop
  | done (d : Decoder) : Fills d [] (.ok ()) d []
  | stop (d : Decoder) (cs : List Cell) (e : Error) : Fills d cs (.error e) d cs
  | next {d d' : Decoder} {p : Piece} {cs cs' : List Cell} {result : Except Error Unit}
      (sized : p.HasWidth) (enough : p.width ≤ d.remaining)
      (rest : Fills (d.advance p.width) cs result d' cs') :
      Fills d (.piece p :: cs) result d'
        (.piece (p.refilled d.order (d.unread.take p.width)) :: cs')

theorem Fills.append {d d₁ d₂ : Decoder} {cs cs₁ ds ds₂ : List Cell} {result : Except Error Unit}
    (h₁ : Fills d cs (.ok ()) d₁ cs₁) (h₂ : Fills d₁ ds result d₂ ds₂) :
    Fills d (cs ++ ds) result d₂ (cs₁ ++ ds₂) := by
  generalize hr : (Except.ok () : Except Error Unit) = ok at h₁
  induction h₁ with
  | done d => exact h₂
  | stop d cs e => cases hr
  | next sized enough _ ih => exact .next sized enough (ih h₂ hr)

theorem Fills.append_error {d d₁ : Decoder} {cs cs₁ : List Cell} {e : Error}
    (h : Fills d cs (.error e) d₁ cs₁) (ds : List Cell) :
    Fills d (cs ++ ds) (.error e) d₁ (cs₁ ++ ds) := by
  generalize hr : (Except.error e : Except Error Unit) = result at h
  induction h with
  | done d => cases hr
  | stop d cs e' =>
    cases hr
    exact .stop d _ e
  | next sized enough _ ih => exact .next sized enough (ih hr)

/-- Filling cells fills the first few of them, which are pieces, and nothing behind them. -/
theorem Fills.exists_first {d d' : Decoder} {cs cs' : List Cell} {result : Except Error Unit}
    (h : Fills d cs result d' cs') :
    ∃ ps rest, cs = ps.map .piece ++ rest ∧
      cs' = (Piece.refill d.order ps d.unread).map .piece ++ rest ∧
      Piece.total ps ≤ d.remaining ∧ d' = d.advance (Piece.total ps) ∧
      (∀ p ∈ ps, p.HasWidth) ∧ (result = .ok () → rest = []) := by
  induction h with
  | done d => exact ⟨[], [], rfl, rfl, Nat.zero_le _, rfl, nofun, fun _ => rfl⟩
  | stop d cs e => exact ⟨[], cs, rfl, rfl, Nat.zero_le _, rfl, nofun, nofun⟩
  | @next d d' p cs cs' result sized enough _ ih =>
    obtain ⟨ps, rest, hcs, hcs', htotal, hd', hsized, hall⟩ := ih
    rw [Decoder.remaining_advance] at htotal
    refine ⟨p :: ps, rest, ?_, ?_, ?_, ?_, ?_, hall⟩
    · rw [hcs]
      rfl
    · rw [hcs']
      rfl
    · rw [Piece.total_cons]
      omega
    · rw [hd', Decoder.advance_advance, Piece.total_cons]
    · exact List.forall_mem_cons.2 ⟨sized, hsized⟩

namespace Schema

/-- An attempt to fill `x` from `d` fills the cells of `x`. -/
def FillsCells {α : Type} (cells : α → List Cell) (x : α) (d : Decoder)
    (a : Attempt (α × Decoder) Unit) : Prop :=
  Fills d (cells x) a.result a.state.2 (cells a.state.1)

/-! ## Decoding fills cells -/

theorem fills_fillWord (kind : Scalar) (slot : Word kind.width) (d : Decoder) :
    FillsCells (fun v => [.piece (.number kind v)]) slot d (d.fillWord kind.width slot) := by
  rcases Nat.lt_or_ge d.remaining kind.width with h | h
  · rw [Decoder.fillWord_of_lt h]
    exact .stop d _ _
  · rw [Decoder.fillWord_of_le h]
    exact .next trivial h (.done _)

theorem fills_refill (kind : Scalar) (slots : List (Word kind.width)) (d : Decoder)
    (h : slots.length * kind.width ≤ d.remaining) :
    Fills d (slots.flatMap (cells (.scalar kind))) (.ok ())
      (d.advance (slots.length * kind.width))
      ((Decoder.refill d.order kind.width slots d.unread).flatMap (cells (.scalar kind))) := by
  induction slots generalizing d with
  | nil =>
    rw [List.length_nil, Nat.zero_mul, Decoder.advance_zero]
    exact .done d
  | cons slot slots ih =>
    rw [List.length_cons, Nat.succ_mul] at h
    have hrest := ih (d.advance kind.width) (by rw [Decoder.remaining_advance]; omega)
    rw [Decoder.advance_advance] at hrest
    rw [List.length_cons, Nat.succ_mul, Nat.add_comm]
    have hw : kind.width ≤ d.remaining := by omega
    rw [Decoder.refill_cons_of_le d.order hw]
    exact .next (p := .number kind slot) trivial hw hrest

theorem fills_fillWords (kind : Scalar) (slots : List (Word kind.width)) (d : Decoder) :
    FillsCells (fun vs => vs.flatMap (cells (.scalar kind))) slots d
      (d.fillWords kind.width slots) := by
  rcases Nat.lt_or_ge d.remaining (slots.length * kind.width) with h | h
  · rw [Decoder.fillWords_of_lt h]
    exact .stop d _ _
  · rw [Decoder.fillWords_of_le h]
    exact fills_refill kind slots d h

theorem fills_decodeEach {α : Type} {decode : α → Decoder → Attempt (α × Decoder) Unit}
    {cells : α → List Cell} (h : ∀ x d, FillsCells cells x d (decode x d)) (xs : List α)
    (d : Decoder) :
    FillsCells (fun ys => ys.flatMap cells) xs d (decodeEach decode xs d) := by
  induction xs generalizing d with
  | nil => exact .done d
  | cons x xs ih =>
    have hx := h x d
    rw [decodeEach]
    generalize decode x d = first at hx
    obtain ⟨result, y, d₁⟩ := first
    cases result with
    | error e => exact hx.append_error (xs.flatMap cells)
    | ok u => exact hx.append (ih d₁)

theorem fills_decodeRun (element : Schema)
    (h : ∀ x d, FillsCells element.cells x d (element.decode x d)) (xs : List element.Value)
    (d : Decoder) :
    FillsCells (fun ys => ys.flatMap element.cells) xs d
      (decodeRun element element.decode xs d) := by
  cases element with
  | scalar kind => exact fills_fillWords kind xs d
  | _ => exact fills_decodeEach h xs d

theorem fills_decodeComplex (precision : Precision)
    (v : Word precision.width × Word precision.width) (d : Decoder) :
    FillsCells (cells (.complex precision)) v d (decodeComplex precision.width v d) := by
  have hre := fills_fillWord precision.part v.1 d
  rw [decodeComplex]
  generalize d.fillWord precision.width v.1 = re at hre
  obtain ⟨result, re, d₁⟩ := re
  cases result with
  | error e => exact hre.append_error [.piece (.number precision.part v.2)]
  | ok u => exact hre.append (fills_fillWord precision.part v.2 d₁)

mutual

theorem fills_decode : (s : Schema) → (t : s.Value) → (d : Decoder) →
    FillsCells s.cells t d (s.decode t d)
  | scalar kind, t, d => fills_fillWord kind t d
  | complex precision, t, d => fills_decodeComplex precision t d
  | machine _, t, d => .stop d [.machine t] _
  | run _ element, xs, d => fills_decodeRun element (fills_decode element) xs.val d
  | record _ fields, values, d => Fields.fills_decode fields values d
  | ref form target, t, d => by
    rw [decode]
    cases form.isWritable with
    | false => exact .stop d (target.cells t) _
    | true =>
      cases checkTarget target with
      | error e => exact .stop d (target.cells t) e
      | ok u => exact fills_decode target t d
  | optional target, none, d => by
    rw [decode]
    cases checkTarget target with
    | error e => exact .stop d [] e
    | ok u => exact .stop d [] _
  | optional target, some t, d => by
    rw [decode]
    cases checkTarget target with
    | error e => exact .stop d (target.cells t) e
    | ok u => exact fills_decode target t d

theorem Fields.fills_decode : (fields : Fields) → (values : fields.Values) → (d : Decoder) →
    FillsCells fields.cells values d (fields.decode values d)
  | .nil, _, d => .done d
  | .named _ schema rest, values, d => by
    have hv := Schema.fills_decode schema values.1 d
    rw [Fields.decode]
    generalize schema.decode values.1 d = first at hv
    obtain ⟨result, v, d₁⟩ := first
    cases result with
    | error e => exact hv.append_error (rest.cells values.2)
    | ok u => exact hv.append (Fields.fills_decode rest values.2 d₁)
  | .blank schema rest, values, d => by
    rw [Fields.decode]
    cases hb : schema.layout.blankWidth with
    | error e => exact .stop d ((Fields.blank schema rest).cells values) e
    | ok width =>
      have hsized := (Layout.blankWidth_eq hb).1
      rw [(Layout.blankWidth_eq hb).2.2, Attempt.guarded_ok]
      rcases Nat.lt_or_ge d.remaining schema.layout.extent with h | h
      · rw [Decoder.skip_of_lt h]
        exact .stop d ((Fields.blank schema rest).cells values) _
      · rw [Decoder.skip_of_le h]
        exact .next (p := .padding schema.layout) hsized h (Fields.fills_decode rest values _)

end

/-! ## Decoding keeps the shape -/

theorem sameShape_decodeEach {α : Type} {R : α → α → Prop} (refl : ∀ x, R x x)
    {decode : α → Decoder → Attempt (α × Decoder) Unit} (h : ∀ x d, R x (decode x d).state.1)
    (xs : List α) (d : Decoder) : List.Forall₂ R xs (decodeEach decode xs d).state.1 := by
  induction xs generalizing d with
  | nil => exact .nil
  | cons x xs ih =>
    rw [decodeEach]
    dsimp only
    split
    · exact .cons (h x d) (ih _)
    · exact .cons (h x d) (List.forall₂_same.2 fun y _ => refl y)

theorem sameShape_decodeRun (element : Schema)
    (h : ∀ x d, element.SameShape x (element.decode x d).state.1) (xs : List element.Value)
    (d : Decoder) :
    List.Forall₂ element.SameShape xs (decodeRun element element.decode xs d).state.1 := by
  cases element with
  | scalar kind =>
    -- Read in bulk, the numbers may all differ, so there is no element to argue from but a count.
    have hl := length_decodeRun (scalar kind) (decode (.scalar kind)) xs d
    exact List.forall₂_iff_zip.2 ⟨hl.symm, fun _ => trivial⟩
  | _ => exact sameShape_decodeEach (sameShape_refl _) h xs d

mutual

theorem sameShape_decode : (s : Schema) → (t : s.Value) → (d : Decoder) →
    s.SameShape t (s.decode t d).state.1
  | scalar _, _, _ => trivial
  | complex _, _, _ => trivial
  | machine _, _, _ => trivial
  | run _ element, xs, d => sameShape_decodeRun element (sameShape_decode element) xs.val d
  | record _ fields, values, d => Fields.sameShape_decode fields values d
  | ref form target, t, d => by
    rw [decode]
    cases form.isWritable with
    | false => exact sameShape_refl target t
    | true =>
      cases checkTarget target with
      | error e => exact sameShape_refl target t
      | ok u => exact sameShape_decode target t d
  | optional target, none, d => by
    rw [decode]
    cases checkTarget target <;> trivial
  | optional target, some t, d => by
    rw [decode]
    cases checkTarget target with
    | error e => exact sameShape_refl target t
    | ok u => exact sameShape_decode target t d

theorem Fields.sameShape_decode : (fields : Fields) → (values : fields.Values) → (d : Decoder) →
    fields.SameShape values (fields.decode values d).state.1
  | .nil, _, _ => trivial
  | .named _ schema rest, values, d => by
    have hv := Schema.sameShape_decode schema values.1 d
    rw [Fields.decode]
    dsimp only
    split
    · exact ⟨hv, Fields.sameShape_decode rest values.2 _⟩
    · exact ⟨hv, Fields.sameShape_refl rest values.2⟩
  | .blank schema rest, values, d => by
    rw [Fields.decode]
    cases schema.layout.blankWidth with
    | error e => exact Fields.sameShape_refl rest values
    | ok width =>
      rw [Attempt.guarded_ok]
      dsimp only
      split
      · exact Fields.sameShape_decode rest values _
      · exact Fields.sameShape_refl rest values

end

/-! ## Where decoding stops -/

/-- `t'` is `t` with the pieces `ps` ahead of `rest` read from their own bytes of `bs`, and all else
as it was. -/
structure FilledFirst (s : Schema) (order : ByteOrder) (bs : List UInt8) (ps : List Piece)
    (rest : List Cell) (t t' : s.Value) : Prop where
  sameShape : s.SameShape t t'
  cells_eq : s.cells t = ps.map .piece ++ rest
  filled_eq : s.cells t' = (Piece.refill order ps bs).map .piece ++ rest

/-- **No torn number.** Whatever decoding a target comes to, there are some first cells of the
target, all of them pieces, that took exactly the bytes consumed, each from its own bytes; a blank
field among them has a width. All other cells are as they were, and after a success there are
none. -/
theorem decode_fills_first (s : Schema) (t : s.Value) (d : Decoder) :
    ∃ ps rest, s.FilledFirst d.order d.unread ps rest t (s.decode t d).state.1 ∧
      Piece.total ps ≤ d.remaining ∧
      (s.decode t d).state.2 = d.advance (Piece.total ps) ∧
      (∀ p ∈ ps, p.HasWidth) ∧
      ((s.decode t d).result = .ok () → rest = []) := by
  obtain ⟨ps, rest, ht, ht', htotal, hd', hsized, hall⟩ := (fills_decode s t d).exists_first
  exact ⟨ps, rest, ⟨sameShape_decode s t d, ht, ht'⟩, htotal, hd', hsized, hall⟩

/-- A complex number can be left between its parts. -/
example (im : Word 4) :
    decode (.complex .single) ((1, im) : Word 4 × Word 4) ⟨.big, [0, 0, 0, 5, 0, 0, 0]⟩ =
      .fail (.shortRead 4 3) (((5, im) : Word 4 × Word 4), ⟨.big, [0, 0, 0]⟩) := rfl

/-- What a success leaves: all pieces filled, and the decoder behind them. -/
theorem state_of_decode {s : Schema} {t : s.Value} {d : Decoder}
    (h : (s.decode t d).result = .ok ()) :
    (s.decode t d).state.2 = d.advance (Piece.total (s.pieces t)) ∧
      s.pieces (s.decode t d).state.1 = Piece.refill d.order (s.pieces t) d.unread := by
  obtain ⟨ps, rest, ht, ht', -, hd', -, hall⟩ := (fills_decode s t d).exists_first
  rw [hall h, List.append_nil] at ht ht'
  rw [pieces_eq_of_cells_eq ht, pieces_eq_of_cells_eq ht']
  exact ⟨hd', rfl⟩

end Schema

end ByteExact
