import ByteExact.Proofs.Piece
/-!
# Cells of a value

Pieces pass over the integers of machine width, which have no bytes. Decoding does not: it stops at
one. The cells of a value are its pieces and those integers, in one row.

Results:
* `pieces_eq_of_cells_eq`: a value without such integers has its pieces for cells.
-/
namespace ByteExact

inductive Cell
  | piece (p : Piece)
  /-- An integer of machine width. -/
  | machine (bits : Word 8)

def Cell.piece? : Cell → Option Piece
  | piece p => some p
  | machine _ => none

namespace Schema

mutual

/-- The cells of a value, in declaration and index order. -/
def cells : (s : Schema) → s.Value → List Cell
  | scalar kind, v => [.piece (.number kind v)]
  | complex precision, v =>
    [.piece (.number precision.part v.1), .piece (.number precision.part v.2)]
  | machine _, v => [.machine v]
  | run _ element, xs => xs.val.flatMap element.cells
  | record _ fields, values => fields.cells values
  | ref _ target, v => target.cells v
  | optional target, v =>
    match v with
    | some v => target.cells v
    | none => []

def Fields.cells : (fields : Fields) → fields.Values → List Cell
  | .nil, _ => []
  | .named _ schema rest, values => schema.cells values.1 ++ rest.cells values.2
  | .blank schema rest, values => .piece (.padding schema.layout) :: rest.cells values

end

mutual

theorem filterMap_cells : (s : Schema) → (v : s.Value) →
    (s.cells v).filterMap Cell.piece? = s.pieces v
  | scalar _, _ => rfl
  | complex _, _ => rfl
  | machine _, _ => rfl
  | run _ element, xs => by
    rw [cells, pieces, List.filterMap_flatMap]
    exact congrArg xs.val.flatMap (funext (filterMap_cells element))
  | record _ fields, values => Fields.filterMap_cells fields values
  | ref _ target, v => filterMap_cells target v
  | optional _, none => rfl
  | optional target, some v => filterMap_cells target v

theorem Fields.filterMap_cells : (fields : Fields) → (values : fields.Values) →
    (fields.cells values).filterMap Cell.piece? = fields.pieces values
  | .nil, _ => rfl
  | .named _ schema rest, values => by
    rw [Fields.cells, Fields.pieces, List.filterMap_append, Schema.filterMap_cells schema values.1,
      Fields.filterMap_cells rest values.2]
  | .blank schema rest, values =>
    congrArg (Piece.padding schema.layout :: ·) (Fields.filterMap_cells rest values)

end

theorem pieces_eq_of_cells_eq {s : Schema} {v : s.Value} {ps : List Piece}
    (h : s.cells v = ps.map .piece) : s.pieces v = ps := by
  have hsome : Cell.piece? ∘ .piece = some := rfl
  rw [← filterMap_cells, h, List.filterMap_map, hsome, List.filterMap_some]

end Schema

end ByteExact
