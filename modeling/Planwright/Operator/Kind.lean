/-! The kinds of operator a plan is built from: relational kinds produce rows, scalar kinds produce one
    value, and the two definition kinds stand between them. Each kind fixes how many children a node
    of it has. -/

namespace Planwright

inductive OpKind
  | scanTable | filter | project | crossJoin | innerJoin | leftOuterJoin | crossApply | outerApply
  | unionAll | intersect | except | distinct | groupBy | sort | constrainedSort | singleRowTable
  | varDefList | varDef
  | varRef | constant | null | internalConstant | nullSentinel | constantPredicate
  | eq | ne | lt | gt | le | ge
  | plus | minus | multiply | divide | modulo | unaryMinus
  | and | or | not | isNull | like | caseWhen | cast | softCast | element | aggregate
  deriving DecidableEq, Inhabited

namespace OpKind

/-- All kinds, in catalogue order. A kind's place in this list is its code. -/
def all : List OpKind :=
  [scanTable, filter, project, crossJoin, innerJoin, leftOuterJoin, crossApply, outerApply,
   unionAll, intersect, except, distinct, groupBy, sort, constrainedSort, singleRowTable,
   varDefList, varDef,
   varRef, constant, null, internalConstant, nullSentinel, constantPredicate,
   eq, ne, lt, gt, le, ge,
   plus, minus, multiply, divide, modulo, unaryMinus,
   OpKind.and, OpKind.or, OpKind.not, isNull, like, caseWhen, cast, softCast, element, aggregate]

def code (k : OpKind) : Nat := all.idxOf k

def ofCode? (n : Nat) : Option OpKind := all[n]?

def name : OpKind → String
  | scanTable => "ScanTable"
  | filter => "Filter"
  | project => "Project"
  | crossJoin => "CrossJoin"
  | innerJoin => "InnerJoin"
  | leftOuterJoin => "LeftOuterJoin"
  | crossApply => "CrossApply"
  | outerApply => "OuterApply"
  | unionAll => "UnionAll"
  | intersect => "Intersect"
  | except => "Except"
  | distinct => "Distinct"
  | groupBy => "GroupBy"
  | sort => "Sort"
  | constrainedSort => "ConstrainedSort"
  | singleRowTable => "SingleRowTable"
  | varDefList => "VarDefList"
  | varDef => "VarDef"
  | varRef => "VarRef"
  | constant => "Constant"
  | null => "Null"
  | internalConstant => "InternalConstant"
  | nullSentinel => "NullSentinel"
  | constantPredicate => "ConstantPredicate"
  | eq => "EQ"
  | ne => "NE"
  | lt => "LT"
  | gt => "GT"
  | le => "LE"
  | ge => "GE"
  | plus => "Plus"
  | minus => "Minus"
  | multiply => "Multiply"
  | divide => "Divide"
  | modulo => "Modulo"
  | unaryMinus => "UnaryMinus"
  | .and => "And"
  | .or => "Or"
  | .not => "Not"
  | isNull => "IsNull"
  | like => "Like"
  | caseWhen => "Case"
  | cast => "Cast"
  | softCast => "SoftCast"
  | element => "Element"
  | aggregate => "Aggregate"

def ofName? (s : String) : Option OpKind := all.find? fun k => k.name == s

def isRelational : OpKind → Bool
  | scanTable | filter | project | crossJoin | innerJoin | leftOuterJoin | crossApply | outerApply
  | unionAll | intersect | except | distinct | groupBy | sort | constrainedSort | singleRowTable => true
  | _ => false

def isScalar (k : OpKind) : Bool := !k.isRelational && k != varDefList && k != varDef

def isJoin (k : OpKind) : Bool := k == crossJoin || k == innerJoin || k == leftOuterJoin

def isApply (k : OpKind) : Bool := k == crossApply || k == outerApply

def isSetOp (k : OpKind) : Bool := k == unionAll || k == intersect || k == except

def isComparison : OpKind → Bool
  | eq | ne | lt | gt | le | ge => true
  | _ => false

def isConstant : OpKind → Bool
  | constant | null | internalConstant | nullSentinel | constantPredicate => true
  | _ => false

def arity? : OpKind → Option Nat
  | scanTable | singleRowTable | varRef | constant | null | internalConstant | nullSentinel
  | constantPredicate => some 0
  | distinct | sort | varDef | .not | isNull | cast | softCast | element | unaryMinus => some 1
  | filter | project | crossJoin | crossApply | outerApply | unionAll | intersect | except
  | eq | ne | lt | gt | le | ge | plus | minus | multiply | divide | modulo | .and | .or => some 2
  | innerJoin | leftOuterJoin | groupBy | constrainedSort | like => some 3
  | varDefList | caseWhen | aggregate => none

/-- Whether a node of the kind may have `count` children. A `Case` has when/then pairs and an else. -/
def admits (k : OpKind) (count : Nat) : Bool :=
  match k.arity? with
  | some n => n == count
  | none => k != caseWhen || (3 ≤ count && count % 2 == 1)

end OpKind

inductive SetKind
  | unionAll | intersect | except
  deriving DecidableEq, Inhabited

def SetKind.kind : SetKind → OpKind
  | .unionAll => .unionAll
  | .intersect => .intersect
  | .except => .except

def SetKind.ofKind? : OpKind → Option SetKind
  | .unionAll => some .unionAll
  | .intersect => some .intersect
  | .except => some .except
  | _ => none

inductive ScalarKind
  | eq | ne | lt | gt | le | ge
  | plus | minus | multiply | divide | modulo | unaryMinus
  | and | or | not | isNull | like | caseWhen | cast | softCast | element
  deriving DecidableEq, Inhabited

namespace ScalarKind

def all : List ScalarKind :=
  [eq, ne, lt, gt, le, ge, plus, minus, multiply, divide, modulo, unaryMinus,
   ScalarKind.and, ScalarKind.or, ScalarKind.not, isNull, like, caseWhen, cast, softCast, element]

def kind : ScalarKind → OpKind
  | eq => .eq
  | ne => .ne
  | lt => .lt
  | gt => .gt
  | le => .le
  | ge => .ge
  | plus => .plus
  | minus => .minus
  | multiply => .multiply
  | divide => .divide
  | modulo => .modulo
  | unaryMinus => .unaryMinus
  | .and => .and
  | .or => .or
  | .not => .not
  | isNull => .isNull
  | like => .like
  | caseWhen => .caseWhen
  | cast => .cast
  | softCast => .softCast
  | element => .element

def ofKind? (k : OpKind) : Option ScalarKind := all.find? fun s => s.kind == k

end ScalarKind

end Planwright
