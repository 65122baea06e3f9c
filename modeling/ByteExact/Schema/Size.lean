import ByteExact.Layout.Width
import ByteExact.Schema
/-!
# Sizes of values

`Schema.size` is the number of bytes that a value encodes to. A run whose element layout has a
width is measured by that width and its length, without a look at its elements; any other run adds
up the sizes of its elements, and a record adds up its fields. An absent value has no size, nor has
a reference that leads to another reference.
-/
namespace ByteExact.Schema

/-- Refuse a schema as the target of a reference if it is a reference itself
(`check_indirect`). -/
def checkTarget (target : Schema) : Except Error Unit :=
  if target.isReference then .error (.unsupportedType ("&" ++ target.qualifiedName)) else .ok ()

/-- Add the sizes of elements to a running total. -/
def sumSizes {α : Type} (size : α → Except Error Nat) : List α → Nat → Except Error Nat
  | [], total => .ok total
  | x :: xs, total => do
    let n ← size x
    sumSizes size xs (← Size.add total n)

/-- The size of a run of elements of one layout, each measured by `size` (`elements_size`). -/
def runSize {α : Type} (element : Layout) (size : α → Except Error Nat) (xs : List α) :
    Except Error Nat := do
  match ← element.staticWidth with
  | some width => Size.mul width xs.length
  | none => sumSizes size xs 0

mutual

/-- The number of bytes that a value encodes to (`binary_size`). -/
def size : (s : Schema) → s.Value → Except Error Nat
  | scalar kind, _ => .ok kind.width
  | complex precision, _ => .ok (2 * precision.width)
  | machine kind, _ => .error (.unsupportedType kind.name)
  | run _ element, xs => runSize element.layout element.size xs.val
  | record _ fields, values => fields.size values 0
  | ref _ target, v => do
    checkTarget target
    target.size v
  | optional target, v => do
    checkTarget target
    match v with
    | some v => target.size v
    | none => .error .noValue

/-- Add the sizes of fields to a running total. -/
def Fields.size : (fields : Fields) → fields.Values → Nat → Except Error Nat
  | .nil, _, total => .ok total
  | .named _ schema rest, values, total => do
    let n ← schema.size values.1
    rest.size values.2 (← Size.add total n)
  | .blank schema rest, values, total => do
    let n ← schema.layout.blankWidth
    rest.size values (← Size.add total n)

end

end ByteExact.Schema
