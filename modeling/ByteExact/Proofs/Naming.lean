import ByteExact.Proofs.Independence
import ByteExact.Proofs.Refusal
import ByteExact.Proofs.RoundTrip
import ByteExact.Proofs.Zero
/-!
# Blank fields with names

A blank field is sized, written and skipped by its layout; nothing of it is in a value. A named
field of the same schema is sized, written and filled by its value. If that value is zero, the two
come to the same bytes, and a target without the blank fields ends like one with names for them,
when what was read into these is dropped.

A `Naming` says which blank fields get a name, in one record or in records at any depth, also inside
each other. It leads from values of the schema with the blank fields to values of the other by
`extend`, which puts zeros in the new fields, and back by `restrict`, which drops them.

Results:
* `size_extend`, `bytes_extend`: names for blank fields change neither sizes nor bytes.
* `restrict_of_filled`: a target is filled as its extension is, apart from the new fields.
* `transparent`: all of it for the operations on values.
-/
namespace ByteExact

namespace Piece

theorem length_refill (order : ByteOrder) (ps : List Piece) (bs : List UInt8) :
    (refill order ps bs).length = ps.length := by
  induction ps generalizing bs with
  | nil => rfl
  | cons p ps ih => rw [refill, List.length_cons, List.length_cons, ih]

theorem refill_append (order : ByteOrder) (ps qs : List Piece) (bs : List UInt8) :
    refill order (ps ++ qs) bs = refill order ps bs ++ refill order qs (bs.drop (total ps)) := by
  induction ps generalizing bs with
  | nil => rfl
  | cons p ps ih =>
    rw [List.cons_append, refill, refill, ih, List.drop_drop, total_cons, List.cons_append]

/-- Pieces that were refilled together were refilled one part after the other. -/
theorem refill_append_inj {order : ByteOrder} {ps qs ps' qs' : List Piece} {bs : List UInt8}
    {w : Nat} (hl : List.Forall₂ Alike ps ps') (hw : total ps = w)
    (h : ps' ++ qs' = refill order (ps ++ qs) bs) :
    ps' = refill order ps bs ∧ qs' = refill order qs (bs.drop w) := by
  rw [refill_append, hw] at h
  exact List.append_inj h (by rw [length_refill, hl.length_eq])

end Piece

namespace Schema

/-! ## Namings -/

mutual

/-- The second schema is the first with names for some of its blank fields. The record around them
may be called otherwise. -/
inductive Naming : Schema → Schema → Type
  | same (s : Schema) : Naming s s
  | run (form : RunForm) {element element' : Schema} (inner : Naming element element') :
      Naming (.run form element) (.run form element')
  | record (name name' : String) {fields fields' : Fields} (inner : Fields.Naming fields fields') :
      Naming (.record name fields) (.record name' fields')
  | ref (form : RefForm) {target target' : Schema} (inner : Naming target target') :
      Naming (.ref form target) (.ref form target')
  | optional {target target' : Schema} (inner : Naming target target') :
      Naming (.optional target) (.optional target')

inductive Fields.Naming : Fields → Fields → Type
  | nil : Fields.Naming .nil .nil
  | named (label : String) {schema schema' : Schema} {rest rest' : Fields}
      (inner : Naming schema schema') (more : Fields.Naming rest rest') :
      Fields.Naming (.named label schema rest) (.named label schema' rest')
  /-- A field that stays blank. -/
  | blank (schema : Schema) {rest rest' : Fields} (more : Fields.Naming rest rest') :
      Fields.Naming (.blank schema rest) (.blank schema rest')
  /-- A blank field that gets a name. -/
  | given (label : String) (schema : Schema) {schema' : Schema} {rest rest' : Fields}
      (inner : Naming schema schema') (more : Fields.Naming rest rest') :
      Fields.Naming (.blank schema rest) (.named label schema' rest')

end

/-- The fields with a name for each that is blank: `label i` for the field with `i` ahead of it. -/
def Fields.labelled (label : Nat → String) : Nat → Fields → Fields
  | _, .nil => .nil
  | i, .named own schema rest => .named own schema (rest.labelled label (i + 1))
  | i, .blank schema rest => .named (label i) schema (rest.labelled label (i + 1))

/-- Every blank field of a record gets a name. Records inside its fields stay as they are. -/
def Fields.Naming.all (label : Nat → String) :
    (i : Nat) → (fields : Fields) → Fields.Naming fields (fields.labelled label i)
  | _, .nil => .nil
  | i, .named own schema rest => .named own (.same schema) (all label (i + 1) rest)
  | i, .blank schema rest => .given (label i) schema (.same schema) (all label (i + 1) rest)

mutual

/-- The value with zeros in the fields that were blank. -/
def Naming.extend : {s s' : Schema} → Naming s s' → s.Value → s'.Value
  | _, _, .same _, v => v
  | _, _, .run _ inner, xs =>
    ⟨xs.val.map inner.extend, by rw [List.length_map]; exact xs.property⟩
  | _, _, .record _ _ inner, values => inner.extend values
  | _, _, .ref _ inner, v => inner.extend v
  | _, _, .optional inner, v => Option.map inner.extend v

def Fields.Naming.extend : {fields fields' : Fields} → Fields.Naming fields fields' →
    fields.Values → fields'.Values
  | _, _, .nil, values => values
  | _, _, .named _ inner more, values => (inner.extend values.1, more.extend values.2)
  | _, _, .blank _ more, values => more.extend values
  | _, _, .given _ schema inner more, values =>
    (inner.extend schema.zero, more.extend values)

end

mutual

/-- The value without the fields that were blank. -/
def Naming.restrict : {s s' : Schema} → Naming s s' → s'.Value → s.Value
  | _, _, .same _, v => v
  | _, _, .run _ inner, xs =>
    ⟨xs.val.map inner.restrict, by rw [List.length_map]; exact xs.property⟩
  | _, _, .record _ _ inner, values => inner.restrict values
  | _, _, .ref _ inner, v => inner.restrict v
  | _, _, .optional inner, v => Option.map inner.restrict v

def Fields.Naming.restrict : {fields fields' : Fields} → Fields.Naming fields fields' →
    fields'.Values → fields.Values
  | _, _, .nil, values => values
  | _, _, .named _ inner more, values => (inner.restrict values.1, more.restrict values.2)
  | _, _, .blank _ more, values => more.restrict values
  | _, _, .given _ _ _ more, values => more.restrict values.2

end

mutual

/-- Whether no blank field that gets a name has a shared reference in its schema. -/
def Naming.ownsAll : {s s' : Schema} → Naming s s' → Bool
  | _, _, .same _ => true
  | _, _, .run _ inner => inner.ownsAll
  | _, _, .record _ _ inner => inner.ownsAll
  | _, _, .ref _ inner => inner.ownsAll
  | _, _, .optional inner => inner.ownsAll

def Fields.Naming.ownsAll : {fields fields' : Fields} → Fields.Naming fields fields' → Bool
  | _, _, .nil => true
  | _, _, .named _ inner more => inner.ownsAll && more.ownsAll
  | _, _, .blank _ more => more.ownsAll
  | _, _, .given _ schema inner more =>
    schema.ownsAll && inner.ownsAll && more.ownsAll

end

/-! ## What a naming keeps -/

theorem isReference_naming {s s' : Schema} (c : Naming s s') : s'.isReference = s.isReference := by
  cases c <;> rfl

theorem checkTarget_naming {s s' : Schema} (c : Naming s s') (h : checkTarget s = .ok ()) :
    checkTarget s' = .ok () := by
  rw [checkTarget_eq_ok_iff, isPointer_layout] at h ⊢
  rw [isReference_naming c, h]

theorem staticWidth_pointer_iff {target : Schema} {w : Option Nat} :
    (Layout.pointer target.layout).staticWidth = .ok w ↔
      checkTarget target = .ok () ∧ target.layout.staticWidth = .ok w := by
  constructor
  · intro h
    obtain ⟨hp, h⟩ := staticWidth_pointer h
    exact ⟨checkTarget_eq_ok_iff.2 hp, h⟩
  · rintro ⟨hc, h⟩
    rw [Layout.staticWidth, checkTarget_eq_ok_iff.1 hc, if_neg Bool.false_ne_true, h]

mutual

theorem staticWidth_naming : {s s' : Schema} → Naming s s' → {w : Option Nat} →
    s.layout.staticWidth = .ok w → s'.layout.staticWidth = .ok w
  | _, _, .same _, _, h => h
  | _, _, .run form inner, w, h => by
    cases form
    all_goals
      obtain ⟨width, hwidth, h⟩ := bind_eq_ok_iff.1 h
      exact bind_eq_ok_iff.2 ⟨width, staticWidth_naming inner hwidth, h⟩
  | _, _, .record _ _ inner, _, h => Fields.staticWidth_naming inner h
  | _, _, .ref _ inner, _, h => by
    obtain ⟨hc, h⟩ := staticWidth_pointer_iff.1 h
    exact staticWidth_pointer_iff.2 ⟨checkTarget_naming inner hc, staticWidth_naming inner h⟩
  | _, _, .optional inner, _, h => by
    obtain ⟨hc, h⟩ := staticWidth_pointer_iff.1 h
    exact staticWidth_pointer_iff.2 ⟨checkTarget_naming inner hc, staticWidth_naming inner h⟩

theorem Fields.staticWidth_naming : {fields fields' : Fields} → Fields.Naming fields fields' →
    {total w : Option Nat} → fields.layout.staticWidth total = .ok w →
    fields'.layout.staticWidth total = .ok w
  | _, _, .nil, _, _, h => h
  | _, _, .named _ inner more, _, _, h => by
    obtain ⟨width, hwidth, h⟩ := bind_eq_ok_iff.1 h
    obtain ⟨sum, hsum, h⟩ := bind_eq_ok_iff.1 h
    exact bind_eq_ok_iff.2 ⟨width, Schema.staticWidth_naming inner hwidth,
      bind_eq_ok_iff.2 ⟨sum, hsum, Fields.staticWidth_naming more h⟩⟩
  | _, _, .blank _ more, _, _, h => by
    obtain ⟨width, hwidth, h⟩ := bind_eq_ok_iff.1 h
    cases width with
    | none => cases h
    | some n =>
      obtain ⟨sum, hsum, h⟩ := bind_eq_ok_iff.1 h
      exact bind_eq_ok_iff.2 ⟨some n, hwidth,
        bind_eq_ok_iff.2 ⟨sum, hsum, Fields.staticWidth_naming more h⟩⟩
  | _, _, .given _ _ inner more, _, _, h => by
    obtain ⟨width, hwidth, h⟩ := bind_eq_ok_iff.1 h
    cases width with
    | none => cases h
    | some n =>
      obtain ⟨sum, hsum, h⟩ := bind_eq_ok_iff.1 h
      exact bind_eq_ok_iff.2 ⟨some n, Schema.staticWidth_naming inner hwidth,
        bind_eq_ok_iff.2 ⟨sum, hsum, Fields.staticWidth_naming more h⟩⟩

end

mutual

theorem hasAbsent_extend : {s s' : Schema} → (c : Naming s s') → (v : s.Value) →
    s'.hasAbsent (c.extend v) = s.hasAbsent v
  | _, _, .same _, _ => rfl
  | _, _, .run _ inner, xs =>
    List.any_map.trans (congrArg xs.val.any (funext fun x => hasAbsent_extend inner x))
  | _, _, .record _ _ inner, values => Fields.hasAbsent_extend inner values
  | _, _, .ref _ inner, v => hasAbsent_extend inner v
  | _, _, .optional _, none => rfl
  | _, _, .optional inner, some v => hasAbsent_extend inner v

theorem Fields.hasAbsent_extend : {fields fields' : Fields} →
    (c : Fields.Naming fields fields') → (values : fields.Values) →
    fields'.hasAbsent (c.extend values) = fields.hasAbsent values
  | _, _, .nil, _ => rfl
  | _, _, .named _ inner more, values =>
    congrArg₂ Bool.or (Schema.hasAbsent_extend inner values.1)
      (Fields.hasAbsent_extend more values.2)
  | _, _, .blank _ more, values => Fields.hasAbsent_extend more values
  | _, _, .given _ schema inner more, values =>
    have hzero := (Schema.hasAbsent_extend inner schema.zero).trans (hasAbsent_zero schema)
    congrArg₂ Bool.or hzero (Fields.hasAbsent_extend more values)

end

mutual

theorem holdsShared_extend : {s s' : Schema} → (c : Naming s s') → c.ownsAll = true →
    (v : s.Value) → s'.holdsShared (c.extend v) = s.holdsShared v
  | _, _, .same _, _, _ => rfl
  | _, _, .run _ inner, hc, xs =>
    List.any_map.trans (congrArg xs.val.any (funext fun x => holdsShared_extend inner hc x))
  | _, _, .record _ _ inner, hc, values => Fields.holdsShared_extend inner hc values
  | _, _, .ref form inner, hc, v =>
    congrArg (form == .shared || ·) (holdsShared_extend inner hc v)
  | _, _, .optional _, _, none => rfl
  | _, _, .optional inner, hc, some v => holdsShared_extend inner hc v

theorem Fields.holdsShared_extend : {fields fields' : Fields} →
    (c : Fields.Naming fields fields') → c.ownsAll = true → (values : fields.Values) →
    fields'.holdsShared (c.extend values) = fields.holdsShared values
  | _, _, .nil, _, _ => rfl
  | _, _, .named _ inner more, hc, values => by
    obtain ⟨hinner, hmore⟩ := Bool.and_eq_true_iff.1 hc
    exact congrArg₂ Bool.or (Schema.holdsShared_extend inner hinner values.1)
      (Fields.holdsShared_extend more hmore values.2)
  | _, _, .blank _ more, hc, values => Fields.holdsShared_extend more hc values
  | _, _, .given _ schema inner more, hc, values => by
    obtain ⟨hgiven, hmore⟩ := Bool.and_eq_true_iff.1 hc
    obtain ⟨hschema, hinner⟩ := Bool.and_eq_true_iff.1 hgiven
    have hzero := (Schema.holdsShared_extend inner hinner schema.zero).trans
      (holdsShared_of_ownsAll schema hschema schema.zero)
    exact congrArg₂ Bool.or hzero (Fields.holdsShared_extend more hmore values)

end

/-! ## Sizes -/

theorem runSize_map {α β : Type} {element element' : Layout} {size : α → Except Error Nat}
    {size' : β → Except Error Nat} {f : α → β} {w : Option Nat} (h : element.staticWidth = .ok w)
    (h' : element'.staticWidth = .ok w) (hsize : ∀ x, size' (f x) = size x) (xs : List α) :
    runSize element' size' (xs.map f) = runSize element size xs := by
  have hsum : ∀ total, sumSizes size' (xs.map f) total = sumSizes size xs total := by
    induction xs with
    | nil => intro _; rfl
    | cons x xs ih =>
      intro total
      rw [List.map_cons, sumSizes, sumSizes, hsize]
      simp only [ih]
  rw [runSize, runSize, h, h', List.length_map, hsum]

theorem checkTarget_bind {target target' : Schema} (c : Naming target target')
    {size size' : Except Error Nat} (hc : checkTarget target = .ok ()) (h : size' = size) :
    (checkTarget target' >>= fun _ => size') = (checkTarget target >>= fun _ => size) := by
  rw [hc, checkTarget_naming c hc, h]

theorem addSizes_congr {part part' : Except Error Nat} {rest rest' : Nat → Except Error Nat}
    (hpart : part' = part) (hrest : ∀ total, rest' total = rest total) (sum : Nat) :
    (part' >>= fun n => Size.add sum n >>= rest') =
      (part >>= fun n => Size.add sum n >>= rest) := by
  rw [hpart, funext hrest]

mutual

/-- The layout must have a static width, or be known to vary: that decides, on both sides alike,
whether the elements of a run are looked at. -/
theorem size_extend : {s s' : Schema} → (c : Naming s s') → {w : Option Nat} →
    s.layout.staticWidth = .ok w → (v : s.Value) → s'.size (c.extend v) = s.size v
  | _, _, .same _, _, _, _ => rfl
  | _, _, .run form inner, _, h, xs => by
    obtain ⟨width, hwidth⟩ := staticWidth_of_run form h
    exact runSize_map hwidth (staticWidth_naming inner hwidth) (size_extend inner hwidth) xs.val
  | _, _, .record _ _ inner, _, h, values => Fields.size_extend inner h values 0
  | _, _, .ref _ inner, _, h, v => by
    obtain ⟨hc, h⟩ := staticWidth_pointer_iff.1 h
    exact checkTarget_bind inner hc (size_extend inner h v)
  | _, _, .optional inner, _, h, none => by
    obtain ⟨hc, -⟩ := staticWidth_pointer_iff.1 h
    exact checkTarget_bind inner hc rfl
  | _, _, .optional inner, _, h, some v => by
    obtain ⟨hc, h⟩ := staticWidth_pointer_iff.1 h
    exact checkTarget_bind inner hc (size_extend inner h v)

theorem Fields.size_extend : {fields fields' : Fields} → (c : Fields.Naming fields fields') →
    {total w : Option Nat} → fields.layout.staticWidth total = .ok w → (values : fields.Values) →
    ∀ sum, fields'.size (c.extend values) sum = fields.size values sum
  | _, _, .nil, _, _, _, _, _ => rfl
  | _, _, .named _ inner more, _, _, h, values, sum => by
    obtain ⟨width, hwidth, h⟩ := bind_eq_ok_iff.1 h
    obtain ⟨_, -, h⟩ := bind_eq_ok_iff.1 h
    exact addSizes_congr (Schema.size_extend inner hwidth values.1)
      (Fields.size_extend more h values.2) sum
  | _, _, .blank _ more, _, _, h, values, sum => by
    obtain ⟨-, _, h⟩ := Fields.staticWidth_of_blank h
    exact addSizes_congr rfl (Fields.size_extend more h values) sum
  -- The new field is sized by its value, which is zero, the blank one by its layout.
  | _, _, .given _ schema inner more, _, _, h, values, sum => by
    obtain ⟨hblank, _, h⟩ := Fields.staticWidth_of_blank h
    obtain ⟨hwidth, -, -⟩ := Layout.blankWidth_eq hblank
    have hzero := (Schema.size_extend inner hwidth schema.zero).trans (size_zero hwidth)
    exact addSizes_congr (hzero.trans hblank.symm) (Fields.size_extend more h values) sum

end

/-! ## Bytes -/

theorem flatMap_append_congr {α β : Type} {f : α → List β} {as as' bs bs' : List α}
    (ha : as'.flatMap f = as.flatMap f) (hb : bs'.flatMap f = bs.flatMap f) :
    (as' ++ bs').flatMap f = (as ++ bs).flatMap f := by
  rw [List.flatMap_append, List.flatMap_append, ha, hb]

theorem bytes_flatMap_map {α β γ δ : Type} {f : α → β} {pieces : α → List γ} {pieces' : β → List γ}
    {bytes : γ → List δ} (h : ∀ x, (pieces' (f x)).flatMap bytes = (pieces x).flatMap bytes)
    (xs : List α) :
    ((xs.map f).flatMap pieces').flatMap bytes = (xs.flatMap pieces).flatMap bytes := by
  rw [List.flatMap_assoc, List.flatMap_assoc, List.flatMap_map]
  exact congrArg (xs.flatMap ·) (funext h)

mutual

theorem bytes_extend (order : ByteOrder) : {s s' : Schema} → (c : Naming s s') → s.Admissible →
    (v : s.Value) →
    (s'.pieces (c.extend v)).flatMap (Piece.bytes order) =
      (s.pieces v).flatMap (Piece.bytes order)
  | _, _, .same _, _, _ => rfl
  | _, _, .run _ inner, hs, xs => bytes_flatMap_map (bytes_extend order inner hs) xs.val
  | _, _, .record _ _ inner, hs, values => Fields.bytes_extend order inner hs values
  | _, _, .ref _ inner, hs, v => bytes_extend order inner hs.2 v
  | _, _, .optional _, _, none => rfl
  | _, _, .optional inner, hs, some v => bytes_extend order inner hs.2 v

theorem Fields.bytes_extend (order : ByteOrder) : {fields fields' : Fields} →
    (c : Fields.Naming fields fields') → fields.Admissible → (values : fields.Values) →
    (fields'.pieces (c.extend values)).flatMap (Piece.bytes order) =
      (fields.pieces values).flatMap (Piece.bytes order)
  | _, _, .nil, _, _ => rfl
  | _, _, .named _ inner more, hs, values =>
    flatMap_append_congr (Schema.bytes_extend order inner hs.1 values.1)
      (Fields.bytes_extend order more hs.2 values.2)
  | _, _, .blank schema more, hs, values =>
    congrArg ((Piece.padding schema.layout).bytes order ++ ·)
      (Fields.bytes_extend order more hs.2 values)
  | _, _, .given _ schema inner more, hs, values => by
    obtain ⟨hwidth, hf, -⟩ := Layout.blankWidth_eq hs.1
    have hschema := admissible_of_staticWidth schema _ hwidth
    have hzeros : (schema.pieces schema.zero).flatMap (Piece.bytes order) =
        List.replicate schema.layout.extent 0 := by
      rw [Piece.flatMap_bytes_of_zeros (bytes_zero order schema), total_zero hf]
    have hfirst := (Schema.bytes_extend order inner hschema schema.zero).trans
      (hzeros.trans (List.flatMap_singleton (Piece.bytes order) (.padding schema.layout)).symm)
    exact flatMap_append_congr hfirst (Fields.bytes_extend order more hs.2 values)

end

theorem total_extend {s s' : Schema} (c : Naming s s') (hs : s.Admissible) (v : s.Value) :
    Piece.total (s'.pieces (c.extend v)) = Piece.total (s.pieces v) := by
  rw [← Piece.length_flatMap_bytes .big, bytes_extend .big c hs v, Piece.length_flatMap_bytes]

/-! ## Filling -/

mutual

theorem restrict_extend : {s s' : Schema} → (c : Naming s s') → (v : s.Value) →
    c.restrict (c.extend v) = v
  | _, _, .same _, _ => rfl
  | _, _, .run _ inner, xs => by
    refine Subtype.ext ?_
    show (xs.val.map inner.extend).map inner.restrict = xs.val
    rw [List.map_map]
    exact List.map_id'' (restrict_extend inner) xs.val
  | _, _, .record _ _ inner, values => Fields.restrict_extend inner values
  | _, _, .ref _ inner, v => restrict_extend inner v
  | _, _, .optional _, none => rfl
  | _, _, .optional inner, some v => congrArg some (restrict_extend inner v)

theorem Fields.restrict_extend : {fields fields' : Fields} →
    (c : Fields.Naming fields fields') → (values : fields.Values) →
    c.restrict (c.extend values) = values
  | _, _, .nil, _ => rfl
  | _, _, .named _ inner more, values =>
    Prod.ext (Schema.restrict_extend inner values.1) (Fields.restrict_extend more values.2)
  | _, _, .blank _ more, values => Fields.restrict_extend more values
  | _, _, .given _ _ _ more, values => Fields.restrict_extend more values

end

mutual

theorem sameShape_restrict : {s s' : Schema} → (c : Naming s s') → (a b : s'.Value) →
    s'.SameShape a b → s.SameShape (c.restrict a) (c.restrict b)
  | _, _, .same _, _, _, h => h
  | _, _, .run _ inner, _, _, h =>
    List.forall₂_map_left_iff.2 (List.forall₂_map_right_iff.2 (h.imp (sameShape_restrict inner)))
  | _, _, .record _ _ inner, a, b, h => Fields.sameShape_restrict inner a b h
  | _, _, .ref _ inner, a, b, h => sameShape_restrict inner a b h
  | _, _, .optional _, none, none, _ => trivial
  | _, _, .optional _, none, some _, h => h.elim
  | _, _, .optional _, some _, none, h => h.elim
  | _, _, .optional inner, some a, some b, h => sameShape_restrict inner a b h

theorem Fields.sameShape_restrict : {fields fields' : Fields} →
    (c : Fields.Naming fields fields') → (a b : fields'.Values) → fields'.SameShape a b →
    fields.SameShape (c.restrict a) (c.restrict b)
  | _, _, .nil, _, _, _ => trivial
  | _, _, .named _ inner more, a, b, h =>
    ⟨Schema.sameShape_restrict inner a.1 b.1 h.1, Fields.sameShape_restrict more a.2 b.2 h.2⟩
  | _, _, .blank _ more, a, b, h => Fields.sameShape_restrict more a b h
  | _, _, .given _ _ _ more, a, b, h => Fields.sameShape_restrict more a.2 b.2 h.2

end

/-- Elements that were refilled one after another, each from its own bytes. -/
theorem pieces_map_restrict {α β : Type} {R : β → β → Prop} {pieces : α → List Piece}
    {pieces' : β → List Piece} {extend : α → β} {restrict : β → α} {order : ByteOrder}
    (alike : ∀ x y, R x y → List.Forall₂ Piece.Alike (pieces' x) (pieces' y))
    (total : ∀ x, Piece.total (pieces' (extend x)) = Piece.total (pieces x))
    (step : ∀ x y bs, R (extend x) y → pieces' y = Piece.refill order (pieces' (extend x)) bs →
      pieces (restrict y) = Piece.refill order (pieces x) bs)
    (xs : List α) (ys : List β) (bs : List UInt8) (h : List.Forall₂ R (xs.map extend) ys)
    (hp : ys.flatMap pieces' = Piece.refill order ((xs.map extend).flatMap pieces') bs) :
    (ys.map restrict).flatMap pieces = Piece.refill order (xs.flatMap pieces) bs := by
  induction xs generalizing ys bs with
  | nil =>
    cases h
    rfl
  | cons x xs ih =>
    cases h with
    | @cons _ y _ ys hxy h =>
      obtain ⟨hy, hys⟩ := Piece.refill_append_inj (alike _ y hxy) (total x) hp
      rw [List.map_cons, List.flatMap_cons, List.flatMap_cons, Piece.refill_append,
        step x y bs hxy hy, ih ys _ h hys]

mutual

/-- The induction is on the naming, for all bytes: each part takes its own bytes, from where the
part before it ends, and on both sides it ends at the same place. -/
theorem pieces_restrict (order : ByteOrder) : {s s' : Schema} → (c : Naming s s') →
    s.Admissible → (v : s.Value) → (w : s'.Value) → (bs : List UInt8) →
    s'.SameShape (c.extend v) w → s'.pieces w = Piece.refill order (s'.pieces (c.extend v)) bs →
    s.pieces (c.restrict w) = Piece.refill order (s.pieces v) bs
  | _, _, .same _, _, _, _, _, _, hp => hp
  | _, _, .run _ inner, hs, xs, ys, bs, h, hp =>
    pieces_map_restrict (alike_pieces _) (total_extend inner hs)
      (pieces_restrict order inner hs) xs.val ys.val bs h hp
  | _, _, .record _ _ inner, hs, v, w, bs, h, hp =>
    Fields.pieces_restrict order inner hs v w bs h hp
  | _, _, .ref _ inner, hs, v, w, bs, h, hp => pieces_restrict order inner hs.2 v w bs h hp
  | _, _, .optional _, _, none, none, _, _, _ => rfl
  | _, _, .optional _, _, none, some _, _, h, _ => h.elim
  | _, _, .optional _, _, some _, none, _, h, _ => h.elim
  | _, _, .optional inner, hs, some v, some w, bs, h, hp =>
    pieces_restrict order inner hs.2 v w bs h hp

theorem Fields.pieces_restrict (order : ByteOrder) : {fields fields' : Fields} →
    (c : Fields.Naming fields fields') → fields.Admissible → (values : fields.Values) →
    (filled : fields'.Values) → (bs : List UInt8) → fields'.SameShape (c.extend values) filled →
    fields'.pieces filled = Piece.refill order (fields'.pieces (c.extend values)) bs →
    fields.pieces (c.restrict filled) = Piece.refill order (fields.pieces values) bs
  | _, _, .nil, _, _, _, _, _, _ => rfl
  | _, _, .named _ inner more, hs, values, filled, bs, h, hp => by
    obtain ⟨hfirst, hrest⟩ := Piece.refill_append_inj (Schema.alike_pieces _ _ _ h.1)
      (total_extend inner hs.1 values.1) hp
    refine Eq.trans ?_ (Piece.refill_append order _ _ bs).symm
    exact congrArg₂ (· ++ ·)
      (Schema.pieces_restrict order inner hs.1 values.1 filled.1 bs h.1 hfirst)
      (Fields.pieces_restrict order more hs.2 values.2 filled.2 _ h.2 hrest)
  | _, _, .blank schema more, hs, values, filled, bs, h, hp =>
    congrArg (List.cons (Piece.padding schema.layout))
      (Fields.pieces_restrict order more hs.2 values filled _ h (List.cons.inj hp).2)
  -- What was read into the new field is as wide as the blank one, and is dropped.
  | _, _, .given _ schema inner more, hs, values, filled, bs, h,
      hp => by
    obtain ⟨hwidth, hf, -⟩ := Layout.blankWidth_eq hs.1
    have hwide := total_extend inner (admissible_of_staticWidth schema _ hwidth) schema.zero
    have htotal := hwide.trans (total_zero hf)
    obtain ⟨-, hrest⟩ :=
      Piece.refill_append_inj (Schema.alike_pieces _ _ _ h.1) htotal hp
    exact congrArg (List.cons (Piece.padding schema.layout))
      (Fields.pieces_restrict order more hs.2 values filled.2 _ h.2 hrest)

end

/-- A target is filled in one way, so it is filled as its extension is. -/
theorem restrict_of_filled {s s' : Schema} (c : Naming s s') (hs : s.Admissible)
    {order : ByteOrder} {bs : List UInt8} {v v' : s.Value} {w : s'.Value}
    (hv : s.Filled order bs v v') (hw : s'.Filled order bs (c.extend v) w) :
    c.restrict w = v' := by
  have hshape := sameShape_restrict c _ _ hw.sameShape
  rw [restrict_extend] at hshape
  have hfilled : s.Filled order bs v (c.restrict w) :=
    ⟨hshape, pieces_restrict order c hs v w bs hw.sameShape hw.pieces_eq⟩
  exact eq_of_filled hs (sameShape_refl s v) hfilled hv fun _ _ => rfl

theorem fromBytes_extend {s s' : Schema} (c : Naming s s') {v : s.Value} {n : Nat}
    (order : ByteOrder) (data : List UInt8) (hn : s.size v = .ok n)
    (hn' : s'.size (c.extend v) = .ok n) (hc : c.ownsAll = true) (ha : s.hasAbsent v = false)
    (hs : s.holdsShared v = false) :
    (s'.fromBytes order data (c.extend v)).result = (s.fromBytes order data v).result ∧
      c.restrict (s'.fromBytes order data (c.extend v)).state =
        (s.fromBytes order data v).state := by
  have ha' : s'.hasAbsent (c.extend v) = false := by rw [hasAbsent_extend, ha]
  have hs' : s'.holdsShared (c.extend v) = false := by rw [holdsShared_extend c hc, hs]
  have htarget := targetSize_eq_ok_iff.2 ⟨isWritable_of_holdsShared hn hs, hn⟩
  have htarget' := targetSize_eq_ok_iff.2 ⟨isWritable_of_holdsShared hn' hs', hn'⟩
  exact fromBytes_rel order data htarget htarget' ha ha' hs hs' (restrict_extend c v)
    fun _ _ _ => restrict_of_filled c (admissible_of_size hn)

/-- **A blank field is a field of zeros.** Give names to any blank fields, all those of a record or
some, there or in the elements of a sequence, and zeros for values. A value with a size then has the
same size, and the same bytes in either order. If nothing in it is absent or shared, and no schema
of these fields has a shared reference, decoding into either of the two gives the same result, and
leaves the same in all other fields. -/
theorem Naming.transparent {s s' : Schema} (c : Naming s s') (v : s.Value) (n : Nat)
    (hn : s.size v = .ok n) :
    s'.size (c.extend v) = .ok n ∧
      (∀ order, s'.toBytes order (c.extend v) = s.toBytes order v) ∧
      (c.ownsAll = true → s.hasAbsent v = false → s.holdsShared v = false → ∀ order data,
        (s'.fromBytes order data (c.extend v)).result = (s.fromBytes order data v).result ∧
          c.restrict (s'.fromBytes order data (c.extend v)).state =
            (s.fromBytes order data v).state) := by
  obtain ⟨w, hw, -⟩ := staticWidth_of_size s v n hn
  have hn' : s'.size (c.extend v) = .ok n := by rw [size_extend c hw v, hn]
  refine ⟨hn', ?_, ?_⟩
  · intro order
    rw [toBytes_of_size order hn', toBytes_of_size order hn, hasAbsent_extend,
      bytes_extend order c (admissible_of_size hn) v]
  · intro hc ha hs order data
    exact fromBytes_extend c order data hn hn' hc ha hs

/-- A record with two blank fields side by side: a record with a blank field of its own, and an
array of values that may be absent. -/
def packet : Schema :=
  .record "Packet" (.named "id" (.scalar .uint16)
    (.blank (.record "Pad" (.named "flag" (.scalar .uint8) (.blank (.scalar .uint16) .nil)))
      (.blank (.run (.fixed 2) (.optional (.scalar .uint8)))
        (.named "kind" (.scalar .uint8) .nil))))

/-- A packet with names for the two. -/
def namedPacket : Schema :=
  .record "NamedPacket" (.named "id" (.scalar .uint16)
    (.named "pad1" (.record "Pad" (.named "flag" (.scalar .uint8) (.blank (.scalar .uint16) .nil)))
      (.named "pad2" (.run (.fixed 2) (.optional (.scalar .uint8)))
        (.named "kind" (.scalar .uint8) .nil))))

def packets : Schema := .run .growable packet

def namedPackets : Schema := .run .growable namedPacket

/-- A sequence of one packet. -/
def packetsOf (id : Word 2) (kind : Word 1) : packets.Value := ⟨[(id, kind, ())], trivial⟩

def namedPacketsOf (id : Word 2) (flag first second kind : Word 1) : namedPackets.Value :=
  ⟨[(id, (flag, ()), ⟨[some first, some second], rfl⟩, kind, ())], trivial⟩

def packetsNaming : Naming packets namedPackets :=
  .run .growable (.record "Packet" "NamedPacket" (.all (fun i => "pad" ++ toString i) 0 _))

/-- The packet has eight bytes. What is read into the named fields of one is skipped in the
other. -/
theorem Naming.transparent_packets :
    namedPackets.size (namedPacketsOf 0x0102 0 0 0 7) = .ok 8 ∧
      namedPackets.toBytes .big (namedPacketsOf 0x0102 0 0 0 7) = .ok [1, 2, 0, 0, 0, 0, 0, 7] ∧
      packets.fromBytes .big [1, 2, 3, 4, 5, 6, 7, 8] (packetsOf 0 0) =
        .done 8 (packetsOf 0x0102 8) ∧
      (namedPackets.fromBytes .big [1, 2, 3, 4, 5, 6, 7, 8] (namedPacketsOf 0 0 0 0 0)).result =
        .ok 8 ∧
      packetsNaming.restrict (namedPackets.fromBytes .big [1, 2, 3, 4, 5, 6, 7, 8]
        (namedPacketsOf 0 0 0 0 0)).state = packetsOf 0x0102 8 := by
  obtain ⟨hsize, hbytes, -⟩ := packetsNaming.transparent (packetsOf 0x0102 7) 8 rfl
  obtain ⟨hresult, hstate⟩ := (packetsNaming.transparent (packetsOf 0 0) 8 rfl).2.2 rfl rfl rfl .big
    [1, 2, 3, 4, 5, 6, 7, 8]
  exact ⟨hsize, hbytes .big, rfl, hresult, hstate⟩

end Schema

end ByteExact
