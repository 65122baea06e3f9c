/-!
# Blanks, line ends and comments

A `Reader` takes a value off the front of a text and gives the rest. This module holds the parts
of a TOML text that carry no value, blanks, comments and the ends of lines, and the characters that
comments and bare keys are made of.
-/
namespace ByteExact.Toml

/-- Takes a value off the front of a text, unless none of the right form stands there. -/
abbrev Reader (α : Type) := List Char → Option (α × List Char)

def isBlank (c : Char) : Bool := c == ' ' || c == '\t'

/-- The characters allowed in comments, and in strings besides quotes, escapes and line ends:
the tab, and everything that is not a control character. -/
def isPlain (c : Char) : Bool :=
  c == '\t' || (' ' ≤ c && c ≤ '~') || '\x80' ≤ c

/-- The characters of a key that stands without quotes. -/
def isBare (c : Char) : Bool := c.isAlphanum || c == '_' || c == '-'

def skipBlanks (s : List Char) : List Char := s.dropWhile isBlank

/-- The text behind a line feed, which a carriage return may precede. -/
def newline? : List Char → Option (List Char)
  | '\n' :: s => some s
  | '\r' :: '\n' :: s => some s
  | _ => none

/-- The text behind a comment, which is at the end of its line; unchanged if there is none. -/
def skipComment : List Char → List Char
  | '#' :: s => s.dropWhile isPlain
  | s => s

/-- The text behind the rest of a line on which no more values stand. -/
def lineEnd? (s : List Char) : Option (List Char) :=
  match skipComment (skipBlanks s) with
  | [] => some []
  | s => newline? s

/-- Skip blanks, line ends and whole comments, as between the elements of an array. -/
def skipTrivia (inComment : Bool) : List Char → Option (List Char)
  | [] => some []
  | c :: s =>
    if c == '\n' then skipTrivia false s
    else if c == '\r' && s.head? == some '\n' then skipTrivia false s
    else if inComment then (if isPlain c then skipTrivia true s else none)
    else if isBlank c then skipTrivia false s
    else if c == '#' then skipTrivia true s
    else some (c :: s)

end ByteExact.Toml
