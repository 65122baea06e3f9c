import ByteExact.Layout
import ByteExact.Size
/-!
# Widths of layouts

`Layout.staticWidth` is the encoded width of every value of a layout, where the layout alone
decides it. A layout with a slice in it has none, which is no error; a blank field must have one.
A type without a fixed width is refused at any depth, also below a slice or an array of length
zero, and so is a reference that leads to another reference.
-/
namespace ByteExact.Layout

/-- The width of two parts, if both have one. -/
def addWidths : Option Nat → Option Nat → Except Error (Option Nat)
  | some a, some b => return some (← Size.add a b)
  | _, _ => return none

/-- The refusal of a blank field whose width can vary. -/
def variableBlank (layout : Layout) : Error := .unsupportedType ("blank " ++ layout.shown)

mutual

/-- The width that every value of this layout has, or `none` if it varies (`static_size`). -/
def staticWidth : Layout → Except Error (Option Nat)
  | scalar kind => .ok (some kind.width)
  | complex precision => .ok (some (2 * precision.width))
  | array element length => do
    match ← element.staticWidth with
    | some width => return some (← Size.mul width length)
    | none => return none
  | slice element => do
    let _ ← element.staticWidth
    return none
  | record _ fields => fields.staticWidth (some 0)
  | pointer target =>
    if target.isPointer then .error (.unsupportedType (pointer target).shown)
    else target.staticWidth
  | unsupported name => .error (.unsupportedType name)

/-- The width of the fields behind those that have the width `total`. -/
def Fields.staticWidth : Fields → Option Nat → Except Error (Option Nat)
  | .nil, total => .ok total
  | .cons label layout rest, total => do
    let width ← layout.staticWidth
    if label.isNone && width.isNone then .error (variableBlank layout)
    else rest.staticWidth (← addWidths total width)

end

/-- The width of a blank field of this layout, which must not vary (`blank_size`). -/
def blankWidth (layout : Layout) : Except Error Nat := do
  match ← layout.staticWidth with
  | some width => return width
  | none => .error (variableBlank layout)

end ByteExact.Layout
