import Planwright.Number.Double
import Planwright.Text.Scan

/-! Durations: signed counts of nanoseconds, written with units such as `1h30m` or `1.5ms`. -/

namespace Planwright.Duration

def unit? : String → Option Nat
  | "ns" => some 1
  | "us" | "µs" | "μs" => some 1000
  | "ms" => some 1000000
  | "s" => some 1000000000
  | "m" => some 60000000000
  | "h" => some 3600000000000
  | _ => none

def limit : Nat := 1 <<< 63

/-- Fraction digits as a number and its power of ten. Digits that no longer fit are ignored. -/
def fractionOf : (value scale : Nat) → List Char → Nat × Nat
  | value, scale, [] => (value, scale)
  | value, scale, c :: cs =>
    let next := value * 10 + (c.toNat - '0'.toNat)
    if value > (limit - 1) / 10 || next > limit then (value, scale) else fractionOf next (scale * 10) cs

/-- `value / scale` of a unit in whole nanoseconds. Each step is rounded to double precision. -/
def fractionNanos (value scale unit : Nat) : Nat :=
  let (vn, vd) := (Double.ofRatio false value 1).toRatio
  let (un, ud) := (Double.ofRatio false unit scale).toRatio
  let (n, d) := (Double.ofRatio false (vn * un) (vd * ud)).toRatio
  n / d

def pairs? : Nat → Nat → List Char → Option Nat
  | _, total, [] => some total
  | 0, _, _ => none
  | fuel + 1, total, cs => do
    let (whole, rest) := Text.digits cs
    let count := Text.natOf whole
    let (digits, rest) : List Char × List Char :=
      match rest with
      | '.' :: rest => Text.digits rest
      | rest => ([], rest)
    if (whole.isEmpty && digits.isEmpty) || count > limit then none
    else
      let (name, rest) := rest.span fun c => c != '.' && !c.isDigit
      let unit ← unit? (String.ofList name)
      if count > limit / unit then none
      else
        let (value, scale) := fractionOf 0 1 digits
        let nanos := count * unit + (if value == 0 then 0 else fractionNanos value scale unit)
        if nanos > limit || total + nanos > limit then none else pairs? fuel (total + nanos) rest

def ofText? (s : String) : Option Int64 :=
  let (negative, cs) : Bool × List Char :=
    match s.toList with
    | '-' :: cs => (true, cs)
    | '+' :: cs => (false, cs)
    | cs => (false, cs)
  if cs == ['0'] then some 0
  else if cs.isEmpty then none
  else
    match pairs? cs.length 0 cs with
    | some n =>
      if negative then some (Int64.ofInt (-(n : Int)))
      else if n < limit then some (Int64.ofNat n) else none
    | none => none

def scaled (n places : Nat) : String :=
  let unit := Nat.pow 10 places
  let fraction := n % unit
  let digits := (Text.padded places fraction).toList.reverse.dropWhile (· == '0') |>.reverse
  toString (n / unit) ++ (if fraction == 0 then "" else "." ++ String.ofList digits)

/-- The text of an amount of nanoseconds: below a second in the largest fitting unit, else in hours, minutes
    and seconds. -/
def amountText (n : Nat) : String :=
  if n == 0 then "0s"
  else if n < 1000 then toString n ++ "ns"
  else if n < 1000000 then scaled n 3 ++ "µs"
  else if n < 1000000000 then scaled n 6 ++ "ms"
  else
    let seconds := n / 1000000000
    let tail := scaled (n % 60000000000) 9 ++ "s"
    if seconds < 60 then tail
    else if seconds < 3600 then toString (seconds / 60) ++ "m" ++ tail
    else toString (seconds / 3600) ++ "h" ++ toString (seconds / 60 % 60) ++ "m" ++ tail

def text (d : Int64) : String :=
  (if d.toInt < 0 then "-" else "") ++ amountText d.toInt.natAbs

end Planwright.Duration
