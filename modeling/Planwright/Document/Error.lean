import Planwright.Document.Version
import Planwright.Json.Basic
import Planwright.Fault
import Planwright.Text.Quoted

/-! What can be wrong with a tree document. -/

namespace Planwright

structure Mismatch where
  wanted : String
  found : String
  deriving DecidableEq, Inhabited

def Mismatch.message (m : Mismatch) : String :=
  "value doesn't contain " ++ m.wanted ++ "; it contains " ++ m.found

inductive LiteralSort
  | integer | float | boolean | string | time | duration
  deriving DecidableEq, Inhabited

def LiteralSort.text : LiteralSort → String
  | integer => "integer"
  | float => "float"
  | boolean => "boolean"
  | string => "string"
  | time => "time"
  | duration => "duration"

inductive DocumentError
  | unreadable
  | notObject (found : String)
  | version (cause : VersionError)
  | unsupportedVersion (version : Version)
  | inTable (index : Nat) (cause : DocumentError)
  | inParameter (index : Nat) (cause : DocumentError)
  | inVariable (index : Nat) (cause : DocumentError)
  | inRoot (cause : DocumentError)
  | noRoot
  | rootNotRelational (kind : OpKind)
  | missingType
  | unknownType (name : String)
  | tableUnnamed
  | tableTwice (name : String)
  | inColumnType (column : String) (cause : DocumentError)
  | variableUnnamed
  | inVariableType (name : String) (cause : DocumentError)
  | variableTwice (name : String)
  | undeclaredVariable (name : String)
  | missingField (field : String)
  | invalidField (field : String) (mismatch : Mismatch)
  | mapNotObject (mismatch : Mismatch)
  | invalidMapping (name : String) (mismatch : Mismatch)
  | inSortKey (cause : DocumentError)
  | unknownOp (name : String)
  | inChild (index : Nat) (parent : String) (cause : DocumentError)
  | childCount (kind : OpKind) (count : Nat)
  | childKind (index : Nat) (parent : OpKind) (wanted : String) (found : OpKind)
  | inOp (name : String) (cause : DocumentError)
  | undeclaredTable (name : String)
  | mapCount (count : Nat)
  | inMap (index : Nat) (cause : DocumentError)
  | mapIncomplete (index : Nat) (output : String)
  | literalMismatch (sort : LiteralSort) (mismatch : Mismatch)
  | literalMalformed (sort : LiteralSort)
  | unsupportedConstant (type : String)
  | missingPredicateValue
  | invalidPredicateValue (mismatch : Mismatch)
  | aggregateUnnamed
  | typeNeeded (name : String)
  | fault (cause : Fault)
  deriving DecidableEq, Inhabited

namespace DocumentError

def message : DocumentError → String
  | unreadable => "couldn't parse json"
  | notObject found => "expected JSON object, got " ++ found
  | version .malformed => "couldn't parse document version: Invalid Semantic Version"
  | version .segmentTooLarge => "couldn't parse document version: Error parsing version segment"
  | unsupportedVersion v =>
    "version " ++ v.text ++ " doesn't satisfy " ++ Version.supported ++ ": unsupported document version"
  | inTable index cause => "couldn't decode table " ++ toString index ++ ": " ++ cause.message
  | inParameter index cause => "couldn't decode parameter " ++ toString index ++ ": " ++ cause.message
  | inVariable index cause => "couldn't decode variable " ++ toString index ++ ": " ++ cause.message
  | inRoot cause => "couldn't decode root: " ++ cause.message
  | noRoot => "document has no root"
  | rootNotRelational kind => "root must be a relational operator, got " ++ kind.name
  | missingType => "missing type"
  | unknownType name => "unknown type: " ++ name
  | tableUnnamed => "table has no name"
  | tableTwice name => "table " ++ name ++ " declared twice"
  | inColumnType column cause => "couldn't decode type of column " ++ column ++ ": " ++ cause.message
  | variableUnnamed => "variable has no name"
  | inVariableType name cause => "couldn't decode type of " ++ name ++ ": " ++ cause.message
  | variableTwice name => "variable " ++ name ++ " declared twice"
  | undeclaredVariable name => "undeclared variable " ++ name
  | missingField field => "missing " ++ field
  | invalidField field mismatch => "invalid " ++ field ++ ": " ++ mismatch.message
  | mapNotObject mismatch => "variable map must be an object: " ++ mismatch.message
  | invalidMapping name mismatch => "invalid mapping of " ++ name ++ ": " ++ mismatch.message
  | inSortKey cause => "invalid sort key: " ++ cause.message
  | unknownOp name => "unknown op: " ++ Text.quote name
  | inChild index parent cause =>
    "couldn't decode child " ++ toString index ++ " of " ++ parent ++ ": " ++ cause.message
  | childCount kind count => kind.countMessage count
  | childKind index parent wanted found =>
    "child " ++ toString index ++ " of " ++ parent.name ++ " must be " ++ wanted ++ ", got " ++ found.name
  | inOp name cause => "couldn't decode " ++ name ++ ": " ++ cause.message
  | undeclaredTable name => "undeclared table " ++ Text.quote name
  | mapCount count => "expected 2 variable maps, got " ++ toString count
  | inMap index cause => "couldn't decode variable map " ++ toString index ++ ": " ++ cause.message
  | mapIncomplete index output => "variable map " ++ toString index ++ " doesn't map " ++ output
  | literalMismatch sort mismatch => "invalid " ++ sort.text ++ ": " ++ mismatch.message
  | literalMalformed sort => "invalid " ++ sort.text
  | unsupportedConstant type => "constants of type " ++ type ++ " aren't supported"
  | missingPredicateValue => "missing predicate value"
  | invalidPredicateValue mismatch => "invalid predicate value: " ++ mismatch.message
  | aggregateUnnamed => "aggregate has no name"
  | typeNeeded name => name ++ " needs a type"
  | fault cause => cause.message

def isUnsupportedVersion : DocumentError → Bool
  | unsupportedVersion _ => true
  | _ => false

end DocumentError

end Planwright
