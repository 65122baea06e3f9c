import ByteExact.Proofs.Admissible
import ByteExact.Proofs.Piece
/-!
# Shapes of values

Two values have the same shape if they agree in the lengths of their runs and in what is present;
their numbers may differ. Sizes and piece kinds depend on the shape alone, and a shape together
with pieces makes a value.

Results:
* `size_eq_of_sameShape`, `hasAbsent_eq_of_sameShape`, `alike_pieces`: what a shape decides.
* `eq_of_pieces_eq`: values of an admissible schema with one shape and equal pieces are equal.
-/
namespace ByteExact.Schema

mutual

/-- Whether anything in the value is absent. -/
def hasAbsent : (s : Schema) → s.Value → Bool
  | scalar _, _ => false
  | complex _, _ => false
  | machine _, _ => false
  | run _ element, xs => xs.val.any element.hasAbsent
  | record _ fields, values => fields.hasAbsent values
  | ref _ target, v => target.hasAbsent v
  | optional target, v =>
    match v with
    | some v => target.hasAbsent v
    | none => true

def Fields.hasAbsent : (fields : Fields) → fields.Values → Bool
  | .nil, _ => false
  | .named _ schema rest, values => schema.hasAbsent values.1 || rest.hasAbsent values.2
  | .blank _ rest, values => rest.hasAbsent values

end

mutual

/-- Whether anything in the value stands behind a shared reference. -/
def holdsShared : (s : Schema) → s.Value → Bool
  | scalar _, _ => false
  | complex _, _ => false
  | machine _, _ => false
  | run _ element, xs => xs.val.any element.holdsShared
  | record _ fields, values => fields.holdsShared values
  | ref form target, v => form == .shared || target.holdsShared v
  | optional target, v =>
    match v with
    | some v => target.holdsShared v
    | none => false

def Fields.holdsShared : (fields : Fields) → fields.Values → Bool
  | .nil, _ => false
  | .named _ schema rest, values => schema.holdsShared values.1 || rest.holdsShared values.2
  | .blank _ rest, values => rest.holdsShared values

end

mutual

/-- Equal lengths of runs, and the same things present and absent. -/
def SameShape : (s : Schema) → s.Value → s.Value → Prop
  | scalar _, _, _ => True
  | complex _, _, _ => True
  | machine _, _, _ => True
  | run _ element, xs, ys => List.Forall₂ element.SameShape xs.val ys.val
  | record _ fields, a, b => fields.SameShape a b
  | ref _ target, a, b => target.SameShape a b
  | optional target, a, b =>
    match a, b with
    | some a, some b => target.SameShape a b
    | none, none => True
    | _, _ => False

def Fields.SameShape : (fields : Fields) → fields.Values → fields.Values → Prop
  | .nil, _, _ => True
  | .named _ schema rest, a, b => schema.SameShape a.1 b.1 ∧ rest.SameShape a.2 b.2
  | .blank _ rest, a, b => rest.SameShape a b

end

/-! ## What a shape decides -/

mutual

theorem sameShape_refl : (s : Schema) → (v : s.Value) → s.SameShape v v
  | scalar _, _ => trivial
  | complex _, _ => trivial
  | machine _, _ => trivial
  | run _ element, _ => List.forall₂_same.2 fun x _ => sameShape_refl element x
  | record _ fields, values => Fields.sameShape_refl fields values
  | ref _ target, v => sameShape_refl target v
  | optional _, none => trivial
  | optional target, some v => sameShape_refl target v

theorem Fields.sameShape_refl : (fields : Fields) → (values : fields.Values) →
    fields.SameShape values values
  | .nil, _ => trivial
  | .named _ schema rest, values =>
    ⟨Schema.sameShape_refl schema values.1, Fields.sameShape_refl rest values.2⟩
  | .blank _ rest, values => Fields.sameShape_refl rest values

end

theorem forall₂_symm {α : Type} {R : α → α → Prop} (hR : ∀ a b, R a b → R b a) {xs ys : List α}
    (h : List.Forall₂ R xs ys) : List.Forall₂ R ys xs :=
  (h.imp hR).flip

mutual

theorem sameShape_symm : (s : Schema) → (a b : s.Value) → s.SameShape a b → s.SameShape b a
  | scalar _, _, _, _ => trivial
  | complex _, _, _, _ => trivial
  | machine _, _, _, _ => trivial
  | run _ element, _, _, h => forall₂_symm (sameShape_symm element) h
  | record _ fields, a, b, h => Fields.sameShape_symm fields a b h
  | ref _ target, a, b, h => sameShape_symm target a b h
  | optional _, none, none, _ => trivial
  | optional _, none, some _, h => h.elim
  | optional _, some _, none, h => h.elim
  | optional target, some a, some b, h => sameShape_symm target a b h

theorem Fields.sameShape_symm : (fields : Fields) → (a b : fields.Values) →
    fields.SameShape a b → fields.SameShape b a
  | .nil, _, _, _ => trivial
  | .named _ schema rest, a, b, h =>
    ⟨Schema.sameShape_symm schema a.1 b.1 h.1, Fields.sameShape_symm rest a.2 b.2 h.2⟩
  | .blank _ rest, a, b, h => Fields.sameShape_symm rest a b h

end

theorem forall₂_trans {α : Type} {R : α → α → Prop} (hR : ∀ a b c, R a b → R b c → R a c)
    {xs ys zs : List α} (h₁ : List.Forall₂ R xs ys) (h₂ : List.Forall₂ R ys zs) :
    List.Forall₂ R xs zs := by
  induction h₁ generalizing zs with
  | nil => exact h₂
  | cons hab _ ih =>
    cases h₂ with
    | cons hbc h₂ => exact .cons (hR _ _ _ hab hbc) (ih h₂)

mutual

theorem sameShape_trans : (s : Schema) → (a b c : s.Value) → s.SameShape a b → s.SameShape b c →
    s.SameShape a c
  | scalar _, _, _, _, _, _ => trivial
  | complex _, _, _, _, _, _ => trivial
  | machine _, _, _, _, _, _ => trivial
  | run _ element, _, _, _, h₁, h₂ => forall₂_trans (sameShape_trans element) h₁ h₂
  | record _ fields, a, b, c, h₁, h₂ => Fields.sameShape_trans fields a b c h₁ h₂
  | ref _ target, a, b, c, h₁, h₂ => sameShape_trans target a b c h₁ h₂
  | optional target, a, b, c, h₁, h₂ => by
    cases a <;> cases b <;> cases c
    all_goals first
      | exact sameShape_trans target _ _ _ h₁ h₂
      | exact h₁.elim
      | exact h₂.elim
      | trivial

theorem Fields.sameShape_trans : (fields : Fields) → (a b c : fields.Values) →
    fields.SameShape a b → fields.SameShape b c → fields.SameShape a c
  | .nil, _, _, _, _, _ => trivial
  | .named _ schema rest, a, b, c, h₁, h₂ =>
    ⟨Schema.sameShape_trans schema a.1 b.1 c.1 h₁.1 h₂.1,
      Fields.sameShape_trans rest a.2 b.2 c.2 h₁.2 h₂.2⟩
  | .blank _ rest, a, b, c, h₁, h₂ => Fields.sameShape_trans rest a b c h₁ h₂

end

theorem runSize_congr {α : Type} {element : Layout} {size : α → Except Error Nat} {xs ys : List α}
    (h : List.Forall₂ (fun x y => size x = size y) xs ys) :
    runSize element size xs = runSize element size ys := by
  have hsum : ∀ total, sumSizes size xs total = sumSizes size ys total := by
    induction h with
    | nil => intro _; rfl
    | cons hxy _ ih =>
      intro total
      rw [sumSizes, sumSizes, hxy]
      simp only [ih]
  rw [runSize, runSize, h.length_eq, hsum]

mutual

theorem size_eq_of_sameShape : (s : Schema) → (a b : s.Value) → s.SameShape a b →
    s.size a = s.size b
  | scalar _, _, _, _ => rfl
  | complex _, _, _, _ => rfl
  | machine _, _, _, _ => rfl
  | run _ element, _, _, h => runSize_congr (h.imp (size_eq_of_sameShape element))
  | record _ fields, a, b, h => Fields.size_eq_of_sameShape fields a b h 0
  | ref _ target, a, b, h => by
    rw [size, size, size_eq_of_sameShape target a b h]
  | optional target, a, b, h => by
    cases a <;> cases b
    · rfl
    · exact h.elim
    · exact h.elim
    · rw [size, size, size_eq_of_sameShape target _ _ h]

theorem Fields.size_eq_of_sameShape : (fields : Fields) → (a b : fields.Values) →
    fields.SameShape a b → ∀ total, fields.size a total = fields.size b total
  | .nil, _, _, _, _ => rfl
  | .named _ schema rest, a, b, h, total => by
    rw [Fields.size, Fields.size, Schema.size_eq_of_sameShape schema a.1 b.1 h.1]
    simp only [Fields.size_eq_of_sameShape rest a.2 b.2 h.2]
  | .blank _ rest, a, b, h, total => by
    rw [Fields.size, Fields.size]
    simp only [Fields.size_eq_of_sameShape rest a b h]

end

theorem any_congr {α : Type} {p : α → Bool} {xs ys : List α}
    (h : List.Forall₂ (fun x y => p x = p y) xs ys) : xs.any p = ys.any p := by
  induction h with
  | nil => rfl
  | cons hxy _ ih => rw [List.any_cons, List.any_cons, hxy, ih]

mutual

theorem hasAbsent_eq_of_sameShape : (s : Schema) → (a b : s.Value) → s.SameShape a b →
    s.hasAbsent a = s.hasAbsent b
  | scalar _, _, _, _ => rfl
  | complex _, _, _, _ => rfl
  | machine _, _, _, _ => rfl
  | run _ element, _, _, h => any_congr (h.imp (hasAbsent_eq_of_sameShape element))
  | record _ fields, a, b, h => Fields.hasAbsent_eq_of_sameShape fields a b h
  | ref _ target, a, b, h => hasAbsent_eq_of_sameShape target a b h
  | optional target, a, b, h => by
    cases a <;> cases b
    · rfl
    · exact h.elim
    · exact h.elim
    · exact hasAbsent_eq_of_sameShape target _ _ h

theorem Fields.hasAbsent_eq_of_sameShape : (fields : Fields) → (a b : fields.Values) →
    fields.SameShape a b → fields.hasAbsent a = fields.hasAbsent b
  | .nil, _, _, _ => rfl
  | .named _ schema rest, a, b, h => by
    rw [Fields.hasAbsent, Fields.hasAbsent, Schema.hasAbsent_eq_of_sameShape schema a.1 b.1 h.1,
      Fields.hasAbsent_eq_of_sameShape rest a.2 b.2 h.2]
  | .blank _ rest, a, b, h => Fields.hasAbsent_eq_of_sameShape rest a b h

end

mutual

theorem alike_pieces : (s : Schema) → (a b : s.Value) → s.SameShape a b →
    List.Forall₂ Piece.Alike (s.pieces a) (s.pieces b)
  | scalar kind, a, b, _ => .cons (.number kind a b) .nil
  | complex precision, a, b, _ =>
    .cons (.number precision.part a.1 b.1) (.cons (.number precision.part a.2 b.2) .nil)
  | machine _, _, _, _ => .nil
  | run _ element, _, _, h => List.rel_flatMap h (alike_pieces element)
  | record _ fields, a, b, h => Fields.alike_pieces fields a b h
  | ref _ target, a, b, h => alike_pieces target a b h
  | optional target, a, b, h => by
    cases a <;> cases b
    · exact .nil
    · exact h.elim
    · exact h.elim
    · exact alike_pieces target _ _ h

theorem Fields.alike_pieces : (fields : Fields) → (a b : fields.Values) → fields.SameShape a b →
    List.Forall₂ Piece.Alike (fields.pieces a) (fields.pieces b)
  | .nil, _, _, _ => .nil
  | .named _ schema rest, a, b, h =>
    List.rel_append (Schema.alike_pieces schema a.1 b.1 h.1)
      (Fields.alike_pieces rest a.2 b.2 h.2)
  | .blank schema rest, a, b, h =>
    .cons (.padding schema.layout) (Fields.alike_pieces rest a b h)

end

/-! ## Shape and pieces make a value -/

theorem eq_of_flatMap_eq {α : Type} {R : α → α → Prop} {pieces : α → List Piece}
    (alike : ∀ x y, R x y → List.Forall₂ Piece.Alike (pieces x) (pieces y))
    (eq : ∀ x y, R x y → pieces x = pieces y → x = y) {xs ys : List α}
    (h : List.Forall₂ R xs ys) (hp : xs.flatMap pieces = ys.flatMap pieces) : xs = ys := by
  induction h with
  | nil => rfl
  | @cons x y xs ys hxy _ ih =>
    obtain ⟨hx, hxs⟩ := List.append_inj hp (alike x y hxy).length_eq
    rw [eq x y hxy hx, ih hxs]

mutual

theorem eq_of_pieces_eq : (s : Schema) → s.Admissible → (a b : s.Value) → s.SameShape a b →
    s.pieces a = s.pieces b → a = b
  | scalar kind, _, a, b, _, hp => by
    cases hp
    rfl
  | complex precision, _, a, b, _, hp => by
    obtain ⟨a₁, a₂⟩ := a
    obtain ⟨b₁, b₂⟩ := b
    cases hp
    rfl
  | machine _, hs, _, _, _, _ => hs.elim
  | run _ element, hs, a, b, h, hp =>
    Subtype.ext (eq_of_flatMap_eq (alike_pieces element) (eq_of_pieces_eq element hs) h hp)
  | record _ fields, hs, a, b, h, hp => Fields.eq_of_pieces_eq fields hs a b h hp
  | ref _ target, hs, a, b, h, hp => eq_of_pieces_eq target hs.2 a b h hp
  | optional target, hs, a, b, h, hp => by
    cases a <;> cases b
    · rfl
    · exact h.elim
    · exact h.elim
    · exact congrArg some (eq_of_pieces_eq target hs.2 _ _ h hp)

theorem Fields.eq_of_pieces_eq : (fields : Fields) → fields.Admissible → (a b : fields.Values) →
    fields.SameShape a b → fields.pieces a = fields.pieces b → a = b
  | .nil, _, _, _, _, _ => rfl
  | .named _ schema rest, hs, a, b, h, hp => by
    obtain ⟨h₁, h₂⟩ := List.append_inj hp (Schema.alike_pieces schema a.1 b.1 h.1).length_eq
    exact Prod.ext (Schema.eq_of_pieces_eq schema hs.1 a.1 b.1 h.1 h₁)
      (Fields.eq_of_pieces_eq rest hs.2 a.2 b.2 h.2 h₂)
  | .blank _ rest, hs, a, b, h, hp =>
    Fields.eq_of_pieces_eq rest hs.2 a b h (List.cons.inj hp).2

end

end ByteExact.Schema
