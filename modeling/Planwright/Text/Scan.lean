/-! Reading runs of characters off the front of a text. -/

namespace Planwright.Text

def digit? (c : Char) : Option Nat := if c.isDigit then some (c.toNat - '0'.toNat) else none

def hexDigit? (c : Char) : Option Nat :=
  if c.isDigit then some (c.toNat - '0'.toNat)
  else if 'a' ≤ c && c ≤ 'f' then some (c.toNat - 'a'.toNat + 10)
  else if 'A' ≤ c && c ≤ 'F' then some (c.toNat - 'A'.toNat + 10)
  else none

def natOf (digits : List Char) : Nat :=
  digits.foldl (fun n c => n * 10 + (c.toNat - '0'.toNat)) 0

def hexNat? (digits : List Char) : Option Nat :=
  digits.foldlM (fun n c => (hexDigit? c).map (n * 16 + ·)) 0

def digits (cs : List Char) : List Char × List Char := cs.span Char.isDigit

def lower (s : String) : String := s.map Char.toLower

/-- Letters made small as far as that gives ASCII letters: besides `A` to `Z` these are the dotted capital I
    and the Kelvin sign. Comparing with a word of ASCII letters needs no more. -/
def lowerName (s : String) : String :=
  s.map fun c => if c == '\u0130' then 'i' else if c == '\u212a' then 'k' else c.toLower

def int? (s : String) : Option Int :=
  let (negative, cs) : Bool × List Char :=
    match s.toList with
    | '-' :: cs => (true, cs)
    | cs => (false, cs)
  if cs.isEmpty || !cs.all Char.isDigit then none
  else some (if negative then -(natOf cs : Int) else natOf cs)

def parts (mark : Char) : List Char → List (List Char)
  | [] => [[]]
  | c :: cs => if c == mark then [] :: parts mark cs else (parts mark cs).modifyHead (c :: ·)

def cut (mark : Char) (s : String) : List String := (parts mark s.toList).map String.ofList

def hex (width n : Nat) : String :=
  let digits := Nat.toDigits 16 n
  String.ofList (List.replicate (width - digits.length) '0' ++ digits)

def padded (width n : Nat) : String :=
  let digits := Nat.toDigits 10 n
  String.ofList (List.replicate (width - digits.length) '0' ++ digits)

end Planwright.Text
