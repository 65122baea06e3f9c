import ByteExact.Toml.Backend
import ByteExact.Toml.Document
/-!
# Printing plain documents

A printer of plain statements. Texts are put between double quotes where that can be done without
escapes, and between single quotes otherwise; entries without a plain spelling are refused. With the
reader of documents the printer makes a backend.
-/
namespace ByteExact.Toml

/-- The spelling of a value, if it has a plain one. -/
def Node.spelling? : (node : Node) → Option { spelling : List Char // Spells spelling node }
  | .text value =>
    if hne : value.toList ≠ [] then
      if hbasic : value.toList.all isBasic = true then some ⟨_, .basic value hne hbasic⟩
      else if hliteral : value.toList.all isLiteral = true then
        some ⟨_, .literal value hne hliteral⟩
      else none
    else none
  | .integer (.ofNat n) =>
    if fits : n < 9223372036854775808 then some ⟨_, .decimal n fits⟩ else none
  | _ => none

/-- The statement that adds an entry, if there is a plain one. -/
def Statement.ofPair? (entry : String × Node) : Option Statement :=
  if hkey : entry.1.toList ≠ [] ∧ entry.1.toList.all isBare = true then
    entry.2.spelling?.map fun spelled =>
      ⟨entry.1, spelled.val, entry.2, hkey.1, hkey.2, spelled.property⟩
  else none

/-- Print entries as plain statements, in order. -/
def print? (entries : Entries) : Option String :=
  (entries.mapM Statement.ofPair?).map Statement.render

/-- The reader of documents and the printer of plain ones. -/
def Backend.standard : Backend := ⟨entries?, Toml.print?⟩

end ByteExact.Toml
