import ByteExact.Toml.Space
import ByteExact.Toml.Tree
/-!
# Reading and printing documents

What reads and prints TOML is no part of the theory of configurations: it is a `Backend` that
loading and saving are given. They rely on three laws of the format, `Backend.FollowsToml`. Two are
about documents of plain statements, one for the reader and one for the printer, and one is about
the width of integers. Nothing is said of other documents.
-/
namespace ByteExact.Toml

/-- A character that is printed as itself in a string of either kind, quotes and escapes apart. -/
def isPrintable (c : Char) : Bool := ' ' ≤ c && c ≤ '~'

/-- A character that stands for itself between double quotes. -/
def isBasic (c : Char) : Bool := isPrintable c && c != '"' && c != '\\'

/-- A character that stands for itself between single quotes. -/
def isLiteral (c : Char) : Bool := isPrintable c && c != '\x27'

/-- The plain spellings of a value: a text in quotes of either kind, in which every character stands
for itself, and a natural number of 63 bits in decimal. -/
inductive Spells : List Char → Node → Prop
  | basic (value : String) (ne_nil : value.toList ≠ [])
    (all_isBasic : value.toList.all isBasic = true) :
    Spells ('"' :: value.toList ++ ['"']) (.text value)
  | literal (value : String) (ne_nil : value.toList ≠ [])
    (all_isLiteral : value.toList.all isLiteral = true) :
    Spells ('\x27' :: value.toList ++ ['\x27']) (.text value)
  | decimal (n : Nat) (fits : n < 9223372036854775808) : Spells (Nat.toDigits 10 n) (.integer n)

/-- A bare key and the plain spelling of its value. -/
structure Statement where
  key : String
  spelling : List Char
  node : Node
  key_ne_nil : key.toList ≠ []
  all_isBare : key.toList.all isBare = true
  spells : Spells spelling node

namespace Statement

/-- What the statement adds to its table. -/
def entry (stmt : Statement) : String × Node := (stmt.key, stmt.node)

/-- The line of the statement, without its end. -/
def line (stmt : Statement) : List Char := stmt.key.toList ++ [' ', '=', ' '] ++ stmt.spelling

/-- The document that has these statements, each on a line of its own. -/
def render (stmts : List Statement) : String :=
  String.ofList (stmts.flatMap fun stmt => stmt.line ++ ['\n'])

end Statement

/-- Something that reads and prints TOML documents. -/
structure Backend where
  /-- The entries of the root table of a document, or nothing if the text is no document. -/
  read? : String → Option Entries
  /-- A document whose root table has these entries, or nothing if there is none. -/
  print? : Entries → Option String

/-- What is known of a backend from the format alone. -/
structure Backend.FollowsToml (toml : Backend) : Prop where
  /-- Lines of a bare key and a plainly spelled value each are a document, in which no key may come
  twice, and the lines are its entries. -/
  read?_render : ∀ stmts : List Statement, (stmts.map Statement.key).Nodup →
    toml.read? (Statement.render stmts) = some (stmts.map Statement.entry)
  /-- Entries with bare keys and values that can be spelled plainly are printed a line each, in
  order. Which spelling a value gets is left open. -/
  print?_plain : ∀ entries : Entries, (entries.map Prod.fst).Nodup →
    (∀ entry ∈ entries, ∃ stmt : Statement, stmt.entry = entry) →
      ∃ stmts : List Statement, stmts.map Statement.entry = entries ∧
        toml.print? entries = some (Statement.render stmts)
  /-- Integers have a sign and 64 bits. A larger one has no spelling at all. -/
  print?_large : ∀ (entries : Entries) (key : String) (n : Int), (key, .integer n) ∈ entries →
    9223372036854775808 ≤ n → toml.print? entries = none

end ByteExact.Toml
