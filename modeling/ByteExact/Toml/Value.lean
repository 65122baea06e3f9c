import ByteExact.Toml.Moment
/-!
# Keys and values

A TOML key is a path of names joined by dots, each name bare or a string on one line. A value is a
string, a number, a truth value, a date or time, an array or an inline table. Paths have fewer than
`depthLimit` names, and arrays and inline tables are nested less than `depthLimit` deep.
-/
namespace ByteExact.Toml

/-- The length of a path, and the depth of nesting, that is refused. -/
def depthLimit : Nat := 80

/-- Read one name of a key. -/
def readName : Reader String := fun s =>
  match s.takeWhile isBare with
  | [] => Text.readLine s
  | name => some (String.ofList name, s.dropWhile isBare)

/-- Read a path of at most `limit` names and the blanks around them. -/
def readPath : (limit : Nat) → Reader (List String)
  | 0, _ => none
  | limit + 1, s => do
    let (name, s) ← readName (skipBlanks s)
    match skipBlanks s with
    | '.' :: s =>
      let (names, s) ← readPath limit s
      return (name :: names, s)
    | s => return ([name], s)

def readKey : Reader (List String) := readPath (depthLimit - 1)

/-- Read a key, an equals sign, and the blanks before the value. -/
def readKeySign : Reader (List String) := fun s => do
  let (path, s) ← readKey s
  match s with
  | '=' :: s => return (path, skipBlanks s)
  | _ => none

/-- Read `true` or `false`. -/
def readBoolean : Reader Node
  | 't' :: 'r' :: 'u' :: 'e' :: s => some (.boolean true, s)
  | 'f' :: 'a' :: 'l' :: 's' :: 'e' :: s => some (.boolean false, s)
  | _ => none

/-- Read a value that holds no other value. -/
def readAtom : Reader Node := fun s =>
  ((Text.read s).map fun (text, s) => (.text text, s))
    |>.or (readBoolean s) |>.or (Moment.read s) |>.or (Number.read s)

/-- Read the elements of an array behind its bracket or a comma, up to the closing bracket. The
count of elements is at most `fuel`. -/
def readItems (item : Reader Node) : (fuel : Nat) → Reader (List Node)
  | 0, _ => none
  | fuel + 1, s => do
    match ← skipTrivia false s with
    | ']' :: s => return ([], s)
    | s =>
      let (x, s) ← item s
      match ← skipTrivia false s with
      | ',' :: s =>
        let (xs, s) ← readItems item fuel s
        return (x :: xs, s)
      | ']' :: s => return ([x], s)
      | _ => none

/-- Read the statements of an inline table that has some, up to the closing brace, into a table
under construction. Their count is at most `fuel`. -/
def readPairs (item : Reader Node) : (fuel : Nat) → Scope → Reader Scope
  | 0, _, _ => none
  | fuel + 1, scope, s => do
    let (path, s) ← readKeySign s
    let (x, s) ← item s
    let scope ← scope.assign path x
    match skipBlanks s with
    | ',' :: s => readPairs item fuel scope s
    | '\x7d' :: s => return (scope, s)
    | _ => none

/-- Read an array behind its opening bracket. -/
def readArray (item : Reader Node) : Reader Node := fun s =>
  (readItems item (s.length + 1) s).map fun (items, s) => (.array items, s)

/-- Read an inline table behind its opening brace. -/
def readInline (item : Reader Node) : Reader Node := fun s =>
  match skipBlanks s with
  | '\x7d' :: s => some (.table .inline [], s)
  | s =>
    (readPairs item (s.length + 1) ⟨.inline, []⟩ s).map fun (scope, s) =>
      (.table .inline scope.entries, s)

/-- Read a value in which arrays and inline tables are nested at most `depth` deep. -/
def readNested : (depth : Nat) → Reader Node
  | 0, s => readAtom s
  | depth + 1, s =>
    match s with
    | '[' :: rest => readArray (readNested depth) rest
    | '\x7b' :: rest => readInline (readNested depth) rest
    | _ => readAtom s

def readValue : Reader Node := readNested (depthLimit - 1)

end ByteExact.Toml
