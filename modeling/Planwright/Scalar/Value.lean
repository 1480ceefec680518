import Planwright.Fault
import Planwright.Scalar.Type
import Planwright.Number.Shortest
import Planwright.Calendar.Timestamp
import Planwright.Calendar.Duration

/-! Values: the literals that constant operators carry. -/

namespace Planwright

/-- A value of a scalar type. `any` stands for a value of the type `Any`, which has no content. -/
inductive Value
  | null
  | boolean (holds : Bool)
  | int32 (n : Int32)
  | int64 (n : Int64)
  | float (d : Double)
  | string (s : String)
  | time (t : Timestamp)
  | duration (nanos : Int64)
  | any
  deriving DecidableEq, Inhabited

namespace Value

def type : Value → ScalarType
  | null => .null
  | boolean _ => .boolean
  | int32 _ => .int32
  | int64 _ => .int64
  | float _ => .float
  | string _ => .string
  | time _ => .time
  | duration _ => .duration
  | any => .any

def isNull : Value → Bool
  | null => true
  | _ => false

def integer? : Value → Option Int
  | int32 n => some n.toInt
  | int64 n => some n.toInt
  | _ => none

/-- Less, greater, or neither: a value that is not ordered with another ranks equal to it. -/
def rank {α : Type} (lt : α → α → Bool) (a b : α) : Ordering :=
  if lt a b then .lt else if lt b a then .gt else .eq

/-- The order of values: integers by number whatever their width, values of other types first by type
    and then by content. Times are ordered by instant. -/
def order (a b : Value) : Ordering :=
  match a.integer?, b.integer? with
  | some m, some n => compare m n
  | _, _ =>
    if a.type = b.type then
      match a, b with
      | boolean p, boolean q => rank (fun x y => !x && y) p q
      | float x, float y => rank Double.lt x y
      | string s, string t => rank (fun x y => decide (x < y)) s t
      | time s, time t => compare s.instant t.instant
      | duration m, duration n => compare m.toInt n.toInt
      | _, _ => .eq
    else compare a.type.code b.type.code

def compare (a b : Value) : Except Fault Ordering :=
  if a = .any ∧ b = .any then throw .anyCompared else pure (order a b)

def equals (a b : Value) : Except Fault Bool :=
  if a.type = b.type then return (← compare a b) == .eq else pure false

def text : Value → String
  | null => "<null>"
  | boolean holds => if holds then "true" else "false"
  | int32 n => toString n.toInt
  | int64 n => toString n.toInt
  | float d => d.text
  | string s => "'" ++ s ++ "'"
  | time t => t.text
  | duration nanos => Duration.text nanos
  | any => "<any>"

end Value

/-- A value as handed in from outside: known, or of a type code outside the catalogue. -/
inductive Literal
  | known (value : Value)
  | unknown (code : Nat)
  deriving DecidableEq, Inhabited

namespace Literal

def typeCode : Literal → Nat
  | known value => value.type.code
  | unknown code => code

def isNull : Literal → Bool
  | known value => value.isNull
  | unknown _ => false

def value : Literal → Except Fault Value
  | known value => pure value
  | unknown _ => throw .unknownType

def text (l : Literal) : Except Fault String := return (← l.value).text

/-- Literals of unknown type rank by code against others and cannot be ordered among themselves. -/
def compare (a b : Literal) : Except Fault Ordering :=
  match a, b with
  | known a, known b => Value.compare a b
  | a, b =>
    if a.typeCode = b.typeCode then throw .unknownType
    else pure (Ord.compare a.typeCode b.typeCode)

def equals (a b : Literal) : Except Fault Bool :=
  if a.typeCode = b.typeCode then return (← compare a b) == .eq else pure false

def sameType (a b : Literal) : Bool := a.typeCode == b.typeCode

end Literal

end Planwright
