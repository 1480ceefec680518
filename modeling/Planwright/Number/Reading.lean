import Planwright.Number.Double
import Planwright.Text.Scan

/-! Reading doubles. `Double.ofNumeral?` takes the plain numerals of tree documents; `Double.ofLiteral?` takes
    the richer literals that allow hexadecimal digits, digit separators and a point at either end. Both
    give the double nearest to the number written. -/

namespace Planwright.Double

/-- The nearest number to `m * 10 ^ e`. Exponents far outside the range are cut short, where the result
    is zero or infinite anyway. -/
def ofDecimal (negative : Bool) (m : Nat) (e : Int) : Double :=
  if m == 0 then ofMagnitude negative 0
  else if e > 400 then infinity negative
  else if e < -(400 + (m.log2 : Int)) then ofMagnitude negative 0
  else if 0 ≤ e then ofRatio negative (m * Nat.pow 10 e.toNat) 1
  else ofRatio negative m (Nat.pow 10 (-e).toNat)

def ofBinary (negative : Bool) (m : Nat) (e : Int) : Double :=
  if m == 0 then ofMagnitude negative 0
  else if e > 1100 then infinity negative
  else if e < -(1200 + (m.log2 : Int)) then ofMagnitude negative 0
  else if 0 ≤ e then ofRatio negative (m <<< e.toNat) 1
  else ofRatio negative m (1 <<< (-e).toNat)

def ofWord? (negative : Bool) (cs : List Char) : Option Double :=
  match Text.lower (String.ofList cs) with
  | "inf" | "infinity" => some (infinity negative)
  | "nan" => some nan
  | _ => none

/-- The digits of a literal: what was read, how many digits stood behind the point, whether there was
    any digit, and the rest. -/
structure Mantissa where
  value : Nat
  places : Nat
  found : Bool
  rest : List Char

/-- Digits in a base with at most one point among them. Separators are skipped here and judged by
    `separatorsOk`. -/
def mantissa (base : Nat) (digit : Char → Option Nat) : (point : Bool) → Mantissa → List Char → Mantissa
  | _, m, [] => { m with rest := [] }
  | point, m, c :: cs =>
    if c == '_' then mantissa base digit point m cs
    else if c == '.' then
      if point then { m with rest := c :: cs } else mantissa base digit true m cs
    else
      match digit c with
      | some v =>
        let places := if point then m.places + 1 else m.places
        mantissa base digit point { m with value := m.value * base + v, places, found := true } cs
      | none => { m with rest := c :: cs }

def exponent? (cs : List Char) : Option Int :=
  let (negative, cs) : Bool × List Char :=
    match cs with
    | '-' :: cs => (true, cs)
    | '+' :: cs => (false, cs)
    | cs => (false, cs)
  match cs with
  | [] => none
  | c :: _ =>
    if c.isDigit && cs.all (fun c => c.isDigit || c == '_') then
      let e : Int := Text.natOf (cs.filter (· != '_'))
      some (if negative then -e else e)
    else none

inductive Seen
  | start | digit | separator | other
  deriving DecidableEq

/-- Separators stand between digits; the mark of the base counts as a digit. -/
def separatorsOk (isDigit : Char → Bool) : Seen → List Char → Bool
  | seen, [] => seen != .separator
  | seen, c :: cs =>
    if isDigit c then separatorsOk isDigit .digit cs
    else if c == '_' then seen == .digit && separatorsOk isDigit .separator cs
    else seen != .separator && separatorsOk isDigit .other cs

/-- A number literal: decimal, or hexadecimal with a binary exponent, or a word for what is not finite. A
    number out of range reads as an infinity. -/
def ofLiteral? (s : String) : Option Double :=
  let (signed, negative, cs) : Bool × Bool × List Char :=
    match s.toList with
    | '-' :: cs => (true, true, cs)
    | '+' :: cs => (true, false, cs)
    | cs => (false, false, cs)
  match ofWord? negative cs with
  | some d => if signed && d.isNaN then none else some d
  | none =>
    match cs with
    | '0' :: x :: c :: cs =>
      if x == 'x' || x == 'X' then
        let cs := c :: cs
        let m := mantissa 16 Text.hexDigit? false ⟨0, 0, false, []⟩ cs
        match m.rest with
        | p :: rest =>
          if (p == 'p' || p == 'P') && m.found && separatorsOk (fun c => (Text.hexDigit? c).isSome) .digit cs then
            (exponent? rest).map fun e => ofBinary negative m.value (e - 4 * (m.places : Int))
          else none
        | [] => none
      else decimal negative ('0' :: x :: c :: cs)
    | cs => decimal negative cs
where
  decimal (negative : Bool) (cs : List Char) : Option Double :=
    let m := mantissa 10 Text.digit? false ⟨0, 0, false, []⟩ cs
    if !m.found || !separatorsOk Char.isDigit .start cs then none
    else
      match m.rest with
      | [] => some (ofDecimal negative m.value (-(m.places : Int)))
      | e :: rest =>
        if e == 'e' || e == 'E' then
          (exponent? rest).map fun x => ofDecimal negative m.value (x - (m.places : Int))
        else none

/-- A numeral of a document: digits, then optionally a point and digits, then optionally an exponent. A
    point needs a digit before it, and after it a digit or the exponent. -/
def ofNumeral? (s : String) : Option Double :=
  let (negative, cs) : Bool × List Char :=
    match s.toList with
    | '-' :: cs => (true, cs)
    | cs => (false, cs)
  let (whole, rest) := Text.digits cs
  -- A long run of digits is read as a general literal.
  if whole.length + (if negative then 1 else 0) > 18 then ofLiteral? s
  else if whole.isEmpty then
    ofWord? negative (match cs with | '+' :: cs => cs | cs => cs)
  else
    match rest with
    | [] => some (ofDecimal negative (Text.natOf whole) 0)
    | '.' :: rest =>
      if rest.isEmpty then none
      else
        let (fraction, tail) := Text.digits rest
        withExponent negative (Text.natOf (whole ++ fraction)) fraction.length tail
    | rest => withExponent negative (Text.natOf whole) 0 rest
where
  withExponent (negative : Bool) (m places : Nat) : List Char → Option Double
    | [] => some (ofDecimal negative m (-(places : Int)))
    | e :: rest =>
      if (e == 'e' || e == 'E') && !rest.contains '_' then
        (exponent? rest).map fun x => ofDecimal negative m (x - (places : Int))
      else none

end Planwright.Double
