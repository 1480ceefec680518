/-! Double precision numbers as bit patterns. Order and rounding are defined on the bits with exact
    integer arithmetic, so that facts about them can be proved. -/

namespace Planwright

structure Double where
  bits : UInt64
  deriving DecidableEq, Inhabited

namespace Double

def infinityBits : Nat := 0x7ff0000000000000

def signBit : Nat := 0x8000000000000000

def ofMagnitude (negative : Bool) (magnitude : Nat) : Double :=
  ⟨UInt64.ofNat (if negative then signBit + magnitude else magnitude)⟩

def zero : Double := ⟨0⟩

def nan : Double := ⟨0x7ff8000000000001⟩

def infinity (negative : Bool) : Double := ofMagnitude negative infinityBits

def isNegative (d : Double) : Bool := signBit ≤ d.bits.toNat

def magnitude (d : Double) : Nat := d.bits.toNat % signBit

def isNaN (d : Double) : Bool := infinityBits < d.magnitude

def isInfinite (d : Double) : Bool := d.magnitude == infinityBits

/-- The place of a number in the order of all numbers; both zeros have place 0. -/
def place (d : Double) : Int := if d.isNegative then -(d.magnitude : Int) else d.magnitude

def lt (a b : Double) : Bool := !a.isNaN && !b.isNaN && a.place < b.place

/-- `num / den` rounded to an integer, a half to the even neighbour. -/
def roundDiv (num den : Nat) : Nat :=
  let q := num / den
  let r := num % den
  if 2 * r > den || (2 * r == den && q % 2 == 1) then q + 1 else q

def scaleDown (num den : Nat) (s : Int) : Nat × Nat :=
  if 0 ≤ s then (num, den <<< s.toNat) else (num <<< (-s).toNat, den)

/-- The nearest number to `num / den`, a half going to the even neighbour.

    The value is written as `q * 2 ^ s` with `q` of 53 bits, or `s = -1074` below the normal range. The
    bits are then `(s + 1074) * 2 ^ 52 + q`: a carry out of `q` moves to the next exponent by itself. -/
def ofRatio (negative : Bool) (num den : Nat) : Double :=
  if num == 0 || den == 0 then ofMagnitude negative 0 else
  let s := (num.log2 : Int) - (den.log2 : Int) - 52
  let (n, d) := scaleDown num den s
  let s := max (if n < d <<< 52 then s - 1 else s) (-1074)
  let (n, d) := scaleDown num den s
  let bits := (s + 1074).toNat <<< 52 + roundDiv n d
  ofMagnitude negative (min bits infinityBits)

def parts (d : Double) : Nat × Int :=
  let exponent : Nat := d.magnitude >>> 52
  let fraction : Nat := d.magnitude % 1 <<< 52
  if exponent == 0 then (fraction, -1074) else (fraction + 1 <<< 52, (exponent : Int) - 1075)

def toRatio (d : Double) : Nat × Nat :=
  let (m, q) := d.parts
  if 0 ≤ q then (m <<< q.toNat, 1) else (m, 1 <<< (-q).toNat)

end Double

end Planwright
