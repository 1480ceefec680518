import Planwright.Number.Double

/-! The shortest decimal text of a double: the fewest digits that read back as the same number, written
    without an exponent. -/

namespace Planwright.Double

structure Decimal where
  digits : Nat
  exponent : Int

/-- The largest `p` below `fuel` steps with `10 ^ p ≤ num / den`, for a ratio below one counted downwards. -/
def tenthsBelow (num den : Nat) : Nat → Nat → Nat
  | 0, j => j
  | fuel + 1, j => if den ≤ num * Nat.pow 10 j then j else tenthsBelow num den fuel (j + 1)

def leadingExponent (num den : Nat) : Int :=
  if den ≤ num then ((Nat.toDigits 10 (num / den)).length : Int) - 1
  else -(tenthsBelow num den 400 1 : Int)

/-- The interval of ratios that read back as one number: `low`, `value` and `high` over one denominator,
    with the ends included or not. -/
structure Interval where
  low : Nat
  value : Nat
  high : Nat
  den : Nat
  closed : Bool

/-- What reads back as a positive finite number: everything nearer to it than to its neighbours. The
    neighbour below a power of two is only half as far. -/
def interval (d : Double) : Interval :=
  let (m, q) := d.parts
  let below := if m == 1 <<< 52 && d.magnitude >>> 52 > 1 then 1 else 2
  let e := q - 2
  let up := if 0 ≤ e then 1 <<< e.toNat else 1
  let den := if 0 ≤ e then 1 else 1 <<< (-e).toNat
  ⟨(4 * m - below) * up, 4 * m * up, (4 * m + 2) * up, den, m % 2 == 0⟩

def Interval.holds (i : Interval) (c : Nat) (t : Int) : Bool :=
  let up := Nat.pow 10 t.toNat
  let down := Nat.pow 10 (-t).toNat
  let x := c * up * i.den
  let low := i.low * down
  let high := i.high * down
  if i.closed then low ≤ x && x ≤ high else low < x && x < high

/-- Of the two neighbours of the value on the grid of step `10 ^ t`, the one that reads back; of two, the
    nearer, and of two equally near, the even one. -/
def Interval.onGrid (i : Interval) (t : Int) : Option Nat :=
  let num := i.value * Nat.pow 10 (-t).toNat
  let den := i.den * Nat.pow 10 t.toNat
  let c := num / den
  let r := num % den
  match i.holds c t && c != 0, i.holds (c + 1) t with
  | true, true => some (if 2 * r < den || (2 * r == den && c % 2 == 0) then c else c + 1)
  | true, false => some c
  | false, true => some (c + 1)
  | false, false => none

def Interval.search (i : Interval) (p : Int) : Nat → Nat → Decimal
  | 0, n => ⟨i.value / i.den, (n : Int) - n⟩
  | fuel + 1, n =>
    let t := p - (n : Int)
    match i.onGrid t with
    | some c => ⟨c, t⟩
    | none => i.search p fuel (n + 1)

def shortest (d : Double) : Decimal :=
  let i := d.interval
  i.search (leadingExponent i.value i.den) 18 0

def Decimal.trim : Nat → Decimal → Decimal
  | 0, x => x
  | fuel + 1, x =>
    if x.exponent < 0 && x.digits % 10 == 0 then trim fuel ⟨x.digits / 10, x.exponent + 1⟩ else x

def Decimal.text (x : Decimal) : String :=
  let x := x.trim 20
  let digits := Nat.toDigits 10 x.digits
  if 0 ≤ x.exponent then String.ofList (digits ++ List.replicate x.exponent.toNat '0')
  else
    let places := (-x.exponent).toNat
    let digits := List.replicate (places + 1 - digits.length) '0' ++ digits
    let whole := digits.length - places
    String.ofList (digits.take whole) ++ "." ++ String.ofList (digits.drop whole)

/-- The text of a number: shortest digits, no exponent, and signed words for what is not finite. -/
def text (d : Double) : String :=
  if d.isNaN then "NaN"
  else if d.isInfinite then (if d.isNegative then "-Inf" else "+Inf")
  else (if d.isNegative then "-" else "") ++ (if d.magnitude == 0 then "0" else d.shortest.text)

end Planwright.Double
