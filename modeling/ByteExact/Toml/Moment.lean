import ByteExact.Toml.Number
/-!
# Dates and times

A TOML date, a time, or both with an optional offset from universal time. A date must exist in the
calendar; a second may be the sixtieth, for leap seconds.
-/
namespace ByteExact.Toml.Moment

/-- Read exactly `count` decimal digits. -/
def fixedDigits (count : Nat) : Reader Nat := fun s =>
  let digits := s.take count
  if digits.length = count ∧ digits.all Char.isDigit then
    some (Number.spelled digits, s.drop count)
  else none

/-- Read exactly `count` decimal digits of a number between two others. -/
def ranged (count low high : Nat) : Reader Nat := fun s =>
  (fixedDigits count s).filter fun (n, _) => low ≤ n && n ≤ high

/-- The text behind a character that must stand first. -/
def behind? (c : Char) : List Char → Option (List Char)
  | [] => none
  | d :: s => if d == c then some s else none

def isLeap (year : Nat) : Bool :=
  year % 4 == 0 && (year % 100 != 0 || year % 400 == 0)

def daysIn (year month : Nat) : Nat :=
  if month = 2 then (if isLeap year then 29 else 28)
  else if month ∈ [4, 6, 9, 11] then 30
  else 31

/-- The text behind a date. -/
def date? (s : List Char) : Option (List Char) := do
  let (year, s) ← fixedDigits 4 s
  let s ← behind? '-' s
  let (month, s) ← ranged 2 1 12 s
  let s ← behind? '-' s
  let (_, s) ← ranged 2 1 (daysIn year month) s
  return s

/-- The text behind a time of day, which may have decimal places in its second. -/
def time? (s : List Char) : Option (List Char) := do
  let (_, s) ← ranged 2 0 23 s
  let s ← behind? ':' s
  let (_, s) ← ranged 2 0 59 s
  let s ← behind? ':' s
  let (_, s) ← ranged 2 0 60 s
  match s with
  | '.' :: c :: rest => if c.isDigit then return rest.dropWhile Char.isDigit else return s
  | _ => return s

/-- The text behind an offset from universal time. -/
def offset? : List Char → Option (List Char)
  | [] => none
  | c :: s =>
    if c == 'Z' || c == 'z' then some s
    else if c == '+' || c == '-' then do
      let (_, s) ← ranged 2 0 23 s
      let s ← behind? ':' s
      let (_, s) ← ranged 2 0 59 s
      return s
    else none

/-- The text behind a time and its offset, if one follows a date; otherwise unchanged. -/
def skipTime (s : List Char) : List Char :=
  match s with
  | c :: t =>
    if c == 'T' || c == 't' || c == ' ' then
      match time? t with
      | some rest => (offset? rest).getD rest
      | none => s
    else s
  | [] => s

/-- Read a date, a time, or both. -/
def read : Reader Node := fun s =>
  ((date? s).map skipTime).or (time? s) |>.map fun rest =>
    (.moment (Number.taken s rest), rest)

end ByteExact.Toml.Moment
