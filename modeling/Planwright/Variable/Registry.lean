import Planwright.Fault
import Planwright.Scalar.Type
import Planwright.Variable.Map

/-! Variables and the registry that hands out their numbers. Variables are never changed or removed. -/

namespace Planwright

inductive VarKind
  | parameter | column | computed | setOp
  deriving DecidableEq, Inhabited

def VarKind.text : VarKind → String
  | parameter => "parameter"
  | column => "column"
  | computed => "computed"
  | setOp => "setop"

structure Variable where
  kind : VarKind
  name : String
  type : ScalarType
  deriving DecidableEq, Inhabited

structure Registry where
  vars : Array Variable
  deriving Inhabited

namespace Registry

def empty : Registry := ⟨#[]⟩

def size (r : Registry) : Nat := r.vars.size

def add (r : Registry) (v : Variable) : VarId × Registry := (r.vars.size, ⟨r.vars.push v⟩)

def get? (r : Registry) (v : VarId) : Option Variable := r.vars[v]?

def find (r : Registry) (id : Int) : Except Fault VarId :=
  if 0 ≤ id ∧ id < r.size then pure id.toNat else throw (.unregistered id)

def type (r : Registry) (v : VarId) : ScalarType := ((r.get? v).map (·.type)).getD .null

def text (r : Registry) (v : VarId) : String :=
  match r.get? v with
  | some x => if x.name.isEmpty then "v" ++ toString v else x.name ++ "#" ++ toString v
  | none => "v" ++ toString v

def braced (parts : List String) : String := "\x7b" ++ ", ".intercalate parts ++ "\x7d"

def setText (r : Registry) (s : VarSet) : String := braced (s.toList.map r.text)

def mapText (r : Registry) (m : VarMap) : String :=
  braced (m.entries.map fun p => r.text p.1 ++ " -> " ++ r.text p.2)

def firstInt32? (r : Registry) (vs : List VarId) : Option VarId := vs.find? fun v => r.type v == .int32

end Registry

end Planwright
