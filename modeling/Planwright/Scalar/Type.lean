/-! Scalar types: the types of variables and of scalar operators' results. -/

namespace Planwright

inductive ScalarType
  | null | boolean | int32 | int64 | float | string | time | duration | any
  deriving DecidableEq, Inhabited

namespace ScalarType

def code : ScalarType → Nat
  | null => 0
  | boolean => 1
  | int32 => 2
  | int64 => 3
  | float => 4
  | string => 5
  | time => 6
  | duration => 7
  | any => 8

def text : ScalarType → String
  | null => "NULL"
  | boolean => "Boolean"
  | int32 => "Int32"
  | int64 => "Int64"
  | float => "Float"
  | string => "String"
  | time => "Time"
  | duration => "Duration"
  | any => "Any"

def isInteger : ScalarType → Bool
  | int32 | int64 => true
  | _ => false

def ofName? : String → Option ScalarType
  | "null" => some null
  | "boolean" | "bool" => some boolean
  | "int32" => some int32
  | "int" | "int64" => some int64
  | "float" => some float
  | "string" => some string
  | "time" => some time
  | "duration" => some duration
  | "any" => some any
  | _ => none

end ScalarType

end Planwright
