import Planwright.Text.Scan

/-! Integers as people write them: with an optional sign, in base ten, or in base two, eight or sixteen behind a
    mark, with underscores between digits. -/

namespace Planwright.Text

inductive IntegerProblem
  | syntaxError
  | outOfRange
  deriving DecidableEq, Inhabited

def IntegerProblem.message : IntegerProblem → String
  | syntaxError => "invalid syntax"
  | outOfRange => "value out of range"

/-- The base a number is written in, and its digits. A leading zero alone means base eight. -/
def baseOf : List Char → Nat × List Char
  | '0' :: m :: d :: rest =>
    if m.toLower == 'b' then (2, d :: rest)
    else if m.toLower == 'o' then (8, d :: rest)
    else if m.toLower == 'x' then (16, d :: rest)
    else (8, m :: d :: rest)
  | '0' :: rest => (8, rest)
  | cs => (10, cs)

/-- Reads digits from the left until one is wrong or the number no longer fits 64 bits. Underscores are passed
    over. -/
def readDigits (base : Nat) (n : Nat) : List Char → Except IntegerProblem Nat
  | [] => pure n
  | '_' :: rest => readDigits base n rest
  | c :: rest =>
    match letterDigit? c with
    | none => throw .syntaxError
    | some d =>
      if d ≥ base then throw .syntaxError
      else if n * base + d ≥ 1 <<< 64 then throw .outOfRange
      else readDigits base (n * base + d) rest
where
  letterDigit? (c : Char) : Option Nat :=
    if c.isDigit then some (c.toNat - '0'.toNat)
    else if c.isAlpha then some (c.toLower.toNat - 'a'.toNat + 10)
    else none

def underscoresFit (isDigit : Char → Bool) (afterDigit : Bool) : List Char → Bool
  | [] => true
  | '_' :: c :: rest => afterDigit && isDigit c && underscoresFit isDigit true (c :: rest)
  | '_' :: [] => false
  | c :: rest => underscoresFit isDigit (isDigit c) rest

def hasFitUnderscores : List Char → Bool
  | '0' :: m :: rest =>
    if m.toLower == 'x' then underscoresFit (fun c => (hexDigit? c).isSome) true rest
    else if m.toLower == 'b' || m.toLower == 'o' then underscoresFit Char.isDigit true rest
    else underscoresFit Char.isDigit false ('0' :: m :: rest)
  | cs => underscoresFit Char.isDigit false cs

def readInteger (s : String) : Except IntegerProblem Int := do
  let (negative, cs) : Bool × List Char :=
    match s.toList with
    | '-' :: cs => (true, cs)
    | '+' :: cs => (false, cs)
    | cs => (false, cs)
  if cs.isEmpty then throw .syntaxError
  let (base, digits) := baseOf cs
  let n ← readDigits base 0 digits
  if cs.contains '_' && !hasFitUnderscores cs then throw .syntaxError
  if negative then (if n > 1 <<< 63 then throw .outOfRange else return -(n : Int))
  else (if n ≥ 1 <<< 63 then throw .outOfRange else return n)

end Planwright.Text
