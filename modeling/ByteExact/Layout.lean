import ByteExact.Scalar
/-!
# Layouts

A layout describes the shape of an encodable value apart from any value: its leaves, its fixed and
variable runs, the fields of its records in order, and where it refers to another value. `shown`
writes one the way messages name types.
-/
namespace ByteExact

mutual

/-- The shape of an encodable value (`Type`). -/
inductive Layout
  | scalar (kind : Scalar)
  /-- Two floats, the real part first. -/
  | complex (precision : Precision)
  /-- A fixed number of elements. -/
  | array (element : Layout) (length : Nat)
  /-- A variable number of elements. -/
  | slice (element : Layout)
  | record (name : String) (fields : Layout.Fields)
  /-- A reference to a value, followed one level deep. -/
  | pointer (target : Layout)
  /-- A type without a fixed width, by its name. -/
  | unsupported (name : String)

/-- The fields of a record in declaration order. A field without a label is blank. -/
inductive Layout.Fields
  | nil
  | cons (label : Option String) (layout : Layout) (rest : Layout.Fields)

end

deriving instance DecidableEq for Layout
deriving instance DecidableEq for Layout.Fields
deriving instance Repr for Layout
deriving instance Repr for Layout.Fields

namespace Layout

/-- The way a layout is written in messages (`fmt`). -/
def shown : Layout → String
  | scalar kind => kind.name
  | complex precision => precision.complexName
  | array element length => "[" ++ element.shown ++ "; " ++ toString length ++ "]"
  | slice element => "[" ++ element.shown ++ "]"
  | record name _ => name
  | pointer target => "&" ++ target.shown
  | unsupported name => name

/-- Whether a layout is a number, complex numbers included (`is_numeric`). -/
def isNumeric : Layout → Bool
  | scalar _ | complex _ => true
  | _ => false

def isPointer : Layout → Bool
  | pointer _ => true
  | _ => false

/-- The fields as pairs of label and layout. -/
def Fields.toList : Fields → List (Option String × Layout)
  | nil => []
  | cons label layout rest => (label, layout) :: rest.toList

def Fields.ofList : List (Option String × Layout) → Fields
  | [] => nil
  | (label, layout) :: rest => cons label layout (ofList rest)

@[simp] theorem Fields.ofList_toList (fields : Fields) : ofList fields.toList = fields := by
  match fields with
  | nil => rfl
  | cons label layout rest => simp [toList, ofList, ofList_toList rest]

@[simp] theorem Fields.toList_ofList (fields : List (Option String × Layout)) :
    (ofList fields).toList = fields := by
  induction fields with
  | nil => rfl
  | cons head tail ih => simp [ofList, toList, ih]

example : (array (pointer (slice (scalar .uint8))) 3).shown = "[&[u8]; 3]" := rfl

end Layout

end ByteExact
