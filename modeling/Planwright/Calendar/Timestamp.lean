import Planwright.Text.Scan

/-! Timestamps: a calendar date and a time of day, to the nanosecond, with the offset they were written in.
    Two timestamps are ordered by the instants they name. -/

namespace Planwright

structure Timestamp where
  year : Nat
  month : Nat
  day : Nat
  hour : Nat
  minute : Nat
  second : Nat
  nanos : Nat
  offset : Int
  deriving DecidableEq, Inhabited

namespace Timestamp

/-- The first instant of the first year, the time of values that are not times. -/
def zero : Timestamp := ⟨1, 1, 1, 0, 0, 0, 0, 0⟩

def isLeap (year : Nat) : Bool := year % 4 == 0 && (year % 100 != 0 || year % 400 == 0)

def daysInMonth (year month : Nat) : Nat :=
  match month with
  | 2 => if isLeap year then 29 else 28
  | 4 | 6 | 9 | 11 => 30
  | _ => 31

/-- Days from 1970-01-01 to a date. A year is counted from March, so that the leap day ends it. -/
def daysFromEpoch (year month day : Nat) : Int :=
  let y : Int := if month ≤ 2 then (year : Int) - 1 else year
  let era := Int.fdiv y 400
  let yearOfEra := y - era * 400
  let monthFromMarch : Int := if month > 2 then (month : Int) - 3 else (month : Int) + 9
  let dayOfYear := (153 * monthFromMarch + 2) / 5 + (day : Int) - 1
  let dayOfEra := yearOfEra * 365 + yearOfEra / 4 - yearOfEra / 100 + dayOfYear
  era * 146097 + dayOfEra - 719468

/-- Nanoseconds from the start of 1970, universal time, to the instant named. -/
def instant (t : Timestamp) : Int :=
  let seconds := daysFromEpoch t.year t.month t.day * 86400
    + (t.hour * 3600 + t.minute * 60 + t.second : Nat) - t.offset * 60
  seconds * 1000000000 + t.nanos

def pair? : List Char → Option (Nat × List Char)
  | a :: b :: cs => if a.isDigit && b.isDigit then some (Text.natOf [a, b], cs) else none
  | _ => none

def oneOrTwo? : List Char → Option (Nat × List Char)
  | a :: b :: cs =>
    if a.isDigit then (if b.isDigit then some (Text.natOf [a, b], cs) else some (Text.natOf [a], b :: cs)) else none
  | [a] => if a.isDigit then some (Text.natOf [a], []) else none
  | [] => none

def skip? (c : Char) : List Char → Option (List Char)
  | d :: cs => if c == d then some cs else none
  | [] => none

/-- An optional fraction of a second, after a point or a comma. Digits past the nanoseconds are dropped. -/
def fraction (cs : List Char) : Nat × List Char :=
  match cs with
  | p :: rest =>
    if p == '.' || p == ',' then
      let (digits, tail) := Text.digits rest
      if digits.isEmpty then (0, cs)
      else
        let kept := digits.take 9
        (Text.natOf kept * Nat.pow 10 (9 - kept.length), tail)
    else (0, cs)
  | [] => (0, [])

/-- The offset that ends a timestamp: `Z`, or a sign, hours, a colon and minutes. -/
def offset? : List Char → Option Int
  | ['Z'] => some 0
  | sign :: cs => do
    let (hours, cs) ← pair? cs
    let cs ← skip? ':' cs
    let (minutes, cs) ← pair? cs
    if !cs.isEmpty || hours > 24 || minutes > 60 then none
    else
      let total : Int := (hours * 60 + minutes : Nat)
      if sign == '+' then some total else if sign == '-' then some (-total) else none
  | [] => none

def year? : List Char → Option (Nat × List Char)
  | a :: b :: c :: d :: cs =>
    if [a, b, c, d].all Char.isDigit then some (Text.natOf [a, b, c, d], cs) else none
  | _ => none

/-- Reads `YYYY-MM-DDThh:mm:ss`, an optional fraction and an offset. The date must exist. -/
def ofText? (s : String) : Option Timestamp := do
  let (year, cs) ← year? s.toList
  let (month, cs) ← pair? (← skip? '-' cs)
  let (day, cs) ← pair? (← skip? '-' cs)
  let (hour, cs) ← oneOrTwo? (← skip? 'T' cs)
  let (minute, cs) ← pair? (← skip? ':' cs)
  let (second, cs) ← pair? (← skip? ':' cs)
  let (nanos, cs) := fraction cs
  let offset ← offset? cs
  if month < 1 || month > 12 || day < 1 || day > daysInMonth year month || hour > 23 || minute > 59 || second > 59 then
    none
  else some { year, month, day, hour, minute, second, nanos, offset }

/-- A fraction of a second without trailing zeros, and with nothing at all when it is zero. -/
def fractionText (nanos : Nat) : String :=
  if nanos == 0 then ""
  else
    let digits := (Text.padded 9 nanos).toList.reverse.dropWhile (· == '0') |>.reverse
    "." ++ String.ofList digits

def offsetText (offset : Int) : String :=
  if offset == 0 then "Z"
  else
    let minutes := offset.natAbs
    (if offset < 0 then "-" else "+") ++ Text.padded 2 (minutes / 60) ++ ":" ++ Text.padded 2 (minutes % 60)

def text (t : Timestamp) : String :=
  Text.padded 4 t.year ++ "-" ++ Text.padded 2 t.month ++ "-" ++ Text.padded 2 t.day ++ "T"
    ++ Text.padded 2 t.hour ++ ":" ++ Text.padded 2 t.minute ++ ":" ++ Text.padded 2 t.second
    ++ fractionText t.nanos ++ offsetText t.offset

end Timestamp

end Planwright
