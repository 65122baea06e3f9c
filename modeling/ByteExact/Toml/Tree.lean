/-!
# Documents as trees

The values of a TOML document, and the rules by which its statements build a table. A table
remembers how it came to be. Only a table that no statement has defined yet can be opened by a
header, and only a table that dotted keys made can be added to by dotted keys; an inline table is
complete. A header that names a list of tables goes to its last element.
-/
namespace ByteExact.Toml

/-- How a table came to be. -/
inductive Origin
  /-- By a header of its own, or as the document itself. -/
  | header
  /-- As a step in the path of a header. -/
  | implied
  /-- As a step in a dotted key. -/
  | dotted
  | inline
  deriving DecidableEq, Repr

/-- A value of a document. Floats, dates and times are kept as they are spelled. -/
inductive Node
  | text (value : String)
  | integer (value : Int)
  | float (spelling : String)
  | boolean (value : Bool)
  | moment (spelling : String)
  | array (items : List Node)
  | table (origin : Origin) (entries : List (String × Node))
  /-- Tables under one name, each opened by a header. -/
  | tables (elements : List (List (String × Node)))

/-- The content of a table, in the order of its statements. -/
abbrev Entries := List (String × Node)

/-- A table that statements add to. -/
structure Scope where
  origin : Origin
  entries : Entries

/-- Whether a path may not step into a table of this origin. -/
def Origin.isClosed (origin : Origin) (byDottedKey : Bool) : Bool :=
  match origin with
  | header => byDottedKey
  | implied | dotted => false
  | inline => true

/-- Give a key a value, in place of the one it has. -/
def setEntry (key : String) (node : Node) : Entries → Entries
  | [] => [(key, node)]
  | (k, old) :: rest => if k == key then (k, node) :: rest else (k, old) :: setEntry key node rest

namespace Scope

def find? (scope : Scope) (key : String) : Option Node := scope.entries.lookup key

def set (scope : Scope) (key : String) (node : Node) : Scope :=
  { scope with entries := setEntry key node scope.entries }

/-- Change the table that a path leads to. Missing tables on the way are made. -/
def within (byDottedKey : Bool) (change : Scope → Option Scope) :
    List String → Scope → Option Scope
  | [], scope => change scope
  | key :: path, scope =>
    match scope.find? key with
    | none =>
      let made : Scope := ⟨if byDottedKey then .dotted else .implied, []⟩
      (within byDottedKey change path made).map fun inner =>
        scope.set key (.table inner.origin inner.entries)
    | some (.table origin entries) =>
      if origin.isClosed byDottedKey then none
      else
        (within byDottedKey change path ⟨origin, entries⟩).map fun inner =>
          scope.set key (.table inner.origin inner.entries)
    | some (.tables elements) =>
      match elements.getLast? with
      | none => none
      | some last =>
        (within byDottedKey change path ⟨.header, last⟩).map fun inner =>
          scope.set key (.tables (elements.dropLast ++ [inner.entries]))
    | some _ => none

/-- Give a new key of this table a value. A dotted key must end in a table that dotted keys made,
and a plain key must not. -/
def define (dotted : Bool) (key : String) (node : Node) (scope : Scope) : Option Scope :=
  if (scope.origin == .dotted) != dotted then none
  else if (scope.find? key).isSome then none
  else some (scope.set key node)

/-- Give the value at the end of a key's path. -/
def assign (path : List String) (node : Node) (scope : Scope) : Option Scope :=
  match path.getLast? with
  | none => none
  | some key => scope.within true (define (!path.dropLast.isEmpty) key node) path.dropLast

/-- Open the table that a header names, unless it was opened or otherwise defined before. -/
def openTable (path : List String) (scope : Scope) : Option Scope :=
  match path.getLast? with
  | none => none
  | some key =>
    scope.within false (fun parent =>
      match parent.find? key with
      | none => some (parent.set key (.table .header []))
      | some (.table .implied entries) => some (parent.set key (.table .header entries))
      | some _ => none) path.dropLast

/-- Add an empty element to the list of tables that a header names. -/
def openElement (path : List String) (scope : Scope) : Option Scope :=
  match path.getLast? with
  | none => none
  | some key =>
    scope.within false (fun parent =>
      match parent.find? key with
      | none => some (parent.set key (.tables [[]]))
      | some (.tables elements) => some (parent.set key (.tables (elements ++ [[]])))
      | some _ => none) path.dropLast

end Scope

end ByteExact.Toml
