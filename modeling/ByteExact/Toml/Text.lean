import ByteExact.Toml.Space
/-!
# Strings

The four forms of a TOML string. A basic string has escapes, a literal string stands for itself;
either can be on one line between single delimiters, or on several lines between triple ones. A
triple delimiter may be preceded by up to two quotes that belong to the string, and a backslash at
the end of a line joins it to the next text, blanks and line ends in between left out.
-/
namespace ByteExact.Toml.Text

/-- The quote that delimits literal strings. -/
def apostrophe : Char := '\x27'

/-- The character that a one-letter escape stands for. -/
def escaped? (c : Char) : Option Char :=
  match c with
  | 'b' => some '\x08'
  | 't' => some '\t'
  | 'n' => some '\n'
  | 'f' => some '\x0c'
  | 'r' => some '\r'
  | '"' => some '"'
  | '\\' => some '\\'
  | _ => none

def hexDigit? (c : Char) : Option Nat :=
  if '0' ≤ c ∧ c ≤ '9' then some (c.toNat - '0'.toNat)
  else if 'a' ≤ c ∧ c ≤ 'f' then some (c.toNat - 'a'.toNat + 10)
  else if 'A' ≤ c ∧ c ≤ 'F' then some (c.toNat - 'A'.toNat + 10)
  else none

/-- The character of a code point, unless that is a surrogate or too large. -/
def scalarValue? (code : Nat) : Option Char :=
  if code.isValidChar then some (Char.ofNat code) else none

/-- Put a character in front of the text that was read. -/
def emit (c : Char) (rest : Option (List Char × List Char)) : Option (List Char × List Char) :=
  rest.map fun (text, s) => (c :: text, s)

/-- Behind one quote on several lines: if two more follow, the string closes, and up to two of the
quotes before the last three belong to it. -/
def closing? (quote : Char) (s : List Char) : Option (List Char × List Char) :=
  let following := (s.takeWhile (· == quote)).length
  if following < 2 then none
  else
    let kept := min (following - 2) 2
    some (List.replicate kept quote, s.drop (kept + 2))

/-- What has been read of an escape. -/
inductive Progress
  /-- Outside an escape, or behind a joined line end whose blanks are being left out. -/
  | plain (joining : Bool)
  | escape
  /-- In a numeric escape that lacks `left` digits. -/
  | hex (left code : Nat)
  /-- Between a backslash and the line end that it joins. -/
  | lineEnd

/-- The rest of a basic string behind its opening delimiter. -/
def basicRest (multiline : Bool) : Progress → List Char → Option (List Char × List Char)
  | _, [] => none
  | .plain joining, c :: s =>
    if c == '"' then
      if multiline then
        match closing? '"' s with
        | some closed => some closed
        | none => emit c (basicRest multiline (.plain false) s)
      else some ([], s)
    else if c == '\\' then basicRest multiline .escape s
    else if multiline && c == '\n' then
      if joining then basicRest multiline (.plain true) s
      else emit c (basicRest multiline (.plain false) s)
    else if multiline && c == '\r' then
      if s.head? == some '\n' then basicRest multiline (.plain joining) s else none
    else if joining && isBlank c then basicRest multiline (.plain true) s
    else if isPlain c then emit c (basicRest multiline (.plain false) s)
    else none
  | .escape, c :: s =>
    match escaped? c with
    | some e => emit e (basicRest multiline (.plain false) s)
    | none =>
      if c == 'u' then basicRest multiline (.hex 4 0) s
      else if c == 'U' then basicRest multiline (.hex 8 0) s
      else if multiline && c == '\n' then basicRest multiline (.plain true) s
      else if multiline && (isBlank c || c == '\r' && s.head? == some '\n') then
        basicRest multiline .lineEnd s
      else none
  | .hex left code, c :: s =>
    match hexDigit? c with
    | none => none
    | some d =>
      if left ≤ 1 then
        match scalarValue? (16 * code + d) with
        | some e => emit e (basicRest multiline (.plain false) s)
        | none => none
      else basicRest multiline (.hex (left - 1) (16 * code + d)) s
  | .lineEnd, c :: s =>
    if c == '\n' then basicRest multiline (.plain true) s
    else if isBlank c || c == '\r' && s.head? == some '\n' then basicRest multiline .lineEnd s
    else none

/-- The rest of a literal string behind its opening delimiter. -/
def literalRest (multiline : Bool) : List Char → Option (List Char × List Char)
  | [] => none
  | c :: s =>
    if c == apostrophe then
      if multiline then
        match closing? apostrophe s with
        | some closed => some closed
        | none => emit c (literalRest multiline s)
      else some ([], s)
    else if multiline && c == '\n' then emit c (literalRest multiline s)
    else if multiline && c == '\r' then
      if s.head? == some '\n' then literalRest multiline s else none
    else if isPlain c then emit c (literalRest multiline s)
    else none

/-- Leave out the line end that directly follows an opening triple delimiter. -/
def skipFirstLineEnd (s : List Char) : List Char := (newline? s).getD s

def finish (r : Option (List Char × List Char)) : Option (String × List Char) :=
  r.map fun (text, s) => (String.ofList text, s)

/-- Read a string on one line, the only form that a key can have. -/
def readLine : Reader String
  | [] => none
  | c :: s =>
    if c == '"' then finish (basicRest false (.plain false) s)
    else if c == apostrophe then finish (literalRest false s)
    else none

/-- Read a string of any form. -/
def read : Reader String
  | a :: b :: c :: s =>
    if a == '"' && b == '"' && c == '"' then
      finish (basicRest true (.plain false) (skipFirstLineEnd s))
    else if a == apostrophe && b == apostrophe && c == apostrophe then
      finish (literalRest true (skipFirstLineEnd s))
    else readLine (a :: b :: c :: s)
  | s => readLine s

end ByteExact.Toml.Text
