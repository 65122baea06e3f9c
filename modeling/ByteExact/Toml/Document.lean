import ByteExact.Toml.Value
/-!
# TOML documents

A document is a sequence of lines: statements that give a key its value, headers that open a table
for the statements after them, and comments. `Toml.entries?` reads a whole text into the entries
of its root table, or into nothing if any line is malformed or breaks a rule of the tables.
-/
namespace ByteExact.Toml

/-- The tables read so far, and the path of the one that statements go to. -/
structure Document where
  root : Scope
  current : List String

namespace Document

def empty : Document := ⟨⟨.header, []⟩, []⟩

/-- Give a key of the current table its value. -/
def assign (doc : Document) (path : List String) (node : Node) : Option Document :=
  (doc.root.within false (Scope.assign path node) doc.current).map fun root =>
    { doc with root }

def openTable (doc : Document) (path : List String) : Option Document :=
  (doc.root.openTable path).map fun root => ⟨root, path⟩

def openElement (doc : Document) (path : List String) : Option Document :=
  (doc.root.openElement path).map fun root => ⟨root, path⟩

/-- Take one line, which must not be blank to the end of the text. -/
def readLine (doc : Document) (s : List Char) : Option (Document × List Char) :=
  match s with
  | '#' :: _ | '\n' :: _ | '\r' :: _ => do
    let rest ← lineEnd? s
    return (doc, rest)
  | '[' :: '[' :: s => do
    let (path, s) ← readKey s
    match s with
    | ']' :: ']' :: s => return (← doc.openElement path, ← lineEnd? s)
    | _ => none
  | '[' :: s => do
    let (path, s) ← readKey s
    match s with
    | ']' :: s => return (← doc.openTable path, ← lineEnd? s)
    | _ => none
  | s => do
    let (path, s) ← readKeySign s
    let (node, s) ← readValue s
    return (← doc.assign path node, ← lineEnd? s)

/-- Take all lines. Every line is shorter than the text from its start on. -/
def readLines (doc : Document) (s : List Char) : Option Document :=
  if skipBlanks s = [] then some doc
  else
    match doc.readLine (skipBlanks s) with
    | none => none
    | some (doc, rest) => if rest.length < s.length then readLines doc rest else none
termination_by s.length

end Document

/-- Leave out the mark that may open a text to tell its encoding. -/
def skipByteOrderMark : List Char → List Char
  | '\ufeff' :: s => s
  | s => s

/-- The entries of the root table of a document. -/
def entries? (text : String) : Option Entries :=
  (Document.empty.readLines (skipByteOrderMark text.toList)).map (·.root.entries)

end ByteExact.Toml
