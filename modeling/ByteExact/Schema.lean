import ByteExact.Layout
/-!
# Schemas

A schema is the type of an encodable value: numbers, complex numbers, runs of elements, records
with named and blank fields, and four ways to refer to a value held elsewhere. `Schema.Value` is
the type of its values; a blank field has no value, and a run carries a proof that its length is
one that its form admits. Each schema has a `layout`, in which a reference of any kind is a
pointer and a run is an array or a slice.

Left out: records that hold themselves, which have no finite layout, and the module path in the name
of a record, which `qualifiedName` gives without it.

Results:
* `isPointer_layout`: exactly the references have a pointer for a layout.
-/
namespace ByteExact

/-- How the length of a run of elements is fixed. -/
inductive RunForm
  /-- An array: the length is part of the type. -/
  | fixed (length : Nat)
  /-- A sequence that owns its elements. -/
  | growable
  /-- A view of elements that something else owns. -/
  | view
  deriving DecidableEq, Repr

/-- Whether a run of this form can have `length` elements. -/
def RunForm.Fits (form : RunForm) (length : Nat) : Prop :=
  match form with
  | fixed n => length = n
  | growable | view => True

instance (form : RunForm) (length : Nat) : Decidable (form.Fits length) := by
  cases form <;> unfold RunForm.Fits <;> infer_instance

/-- How a present value is referred to. -/
inductive RefForm
  /-- A reference that only reads. -/
  | shared
  /-- A reference that may also write. -/
  | exclusive
  /-- A box that owns the value. -/
  | owned
  deriving DecidableEq, Repr

/-- Whether a value can be changed through the reference. -/
def RefForm.isWritable : RefForm → Bool
  | shared => false
  | exclusive | owned => true

mutual

/-- The type of an encodable value. -/
inductive Schema
  | scalar (kind : Scalar)
  /-- Two floats, the real part first. -/
  | complex (precision : Precision)
  /-- An integer of machine width, which has no encoding. -/
  | machine (kind : MachineInt)
  | run (form : RunForm) (element : Schema)
  | record (name : String) (fields : Schema.Fields)
  | ref (form : RefForm) (target : Schema)
  /-- A value that may be absent. -/
  | optional (target : Schema)

/-- The fields of a record in declaration order. -/
inductive Schema.Fields
  | nil
  | named (label : String) (schema : Schema) (rest : Schema.Fields)
  /-- Padding: as many zero bytes as a value of the schema would take. -/
  | blank (schema : Schema) (rest : Schema.Fields)

end

deriving instance DecidableEq for Schema
deriving instance DecidableEq for Schema.Fields
deriving instance Repr for Schema
deriving instance Repr for Schema.Fields

namespace Schema

mutual

/-- The values of a schema. A number is the word of its bits. -/
def Value : Schema → Type
  | scalar kind => Word kind.width
  | complex precision => Word precision.width × Word precision.width
  | machine _ => Word 8
  | run form element => { xs : List element.Value // form.Fits xs.length }
  | record _ fields => fields.Values
  | ref _ target => target.Value
  | optional target => Option target.Value

/-- The values of the named fields, in declaration order. -/
def Fields.Values : Fields → Type
  | .nil => Unit
  | .named _ schema rest => schema.Value × rest.Values
  | .blank _ rest => rest.Values

end

mutual

/-- The shape of the values of a schema (`binary_type`). -/
def layout : Schema → Layout
  | scalar kind => .scalar kind
  | complex precision => .complex precision
  | machine kind => .unsupported kind.name
  | run form element =>
    match form with
    | .fixed length => .array element.layout length
    | .growable | .view => .slice element.layout
  | record name fields => .record name fields.layout
  | ref _ target => .pointer target.layout
  | optional target => .pointer target.layout

def Fields.layout : Fields → Layout.Fields
  | .nil => .nil
  | .named label schema rest => .cons (some label) schema.layout rest.layout
  | .blank schema rest => .cons none schema.layout rest.layout

end

/-- Whether a schema is of one of the kinds of reference (`INDIRECT`). -/
def isReference : Schema → Bool
  | ref .. | optional _ => true
  | _ => false

/-- Whether a value of the schema can be decoded into in place (`WRITABLE`). References ask their
target; everything else is writable. -/
def isWritable : Schema → Bool
  | ref form target => form.isWritable && target.isWritable
  | optional target => target.isWritable
  | _ => true

/-- Whether the schema has a description of its own: a view has none, nor has a reference to one. -/
def isDescribed : Schema → Bool
  | run .view _ => false
  | ref _ target => target.isDescribed
  | optional target => target.isDescribed
  | _ => true

/-- The full name of the schema, which tells apart the kinds of reference and of run
(`type_name`). -/
def qualifiedName : Schema → String
  | scalar kind => kind.name
  | complex precision => precision.complexName
  | machine kind => kind.name
  | run form element =>
    match form with
    | .fixed length => "[" ++ element.qualifiedName ++ "; " ++ toString length ++ "]"
    | .growable => "alloc::vec::Vec<" ++ element.qualifiedName ++ ">"
    | .view => "[" ++ element.qualifiedName ++ "]"
  | record name _ => name
  | ref form target =>
    match form with
    | .shared => "&" ++ target.qualifiedName
    | .exclusive => "&mut " ++ target.qualifiedName
    | .owned => "alloc::boxed::Box<" ++ target.qualifiedName ++ ">"
  | optional target => "core::option::Option<" ++ target.qualifiedName ++ ">"

theorem isPointer_layout (s : Schema) : s.layout.isPointer = s.isReference := by
  cases s with
  | run form element => cases form <;> simp [layout, Layout.isPointer, isReference]
  | _ => simp [layout, Layout.isPointer, isReference]

end Schema

end ByteExact
