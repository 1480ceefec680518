import Planwright.Text.Scan

/-! Settings: the values of a configuration, and how fields of nested maps are looked up. -/

namespace Planwright

inductive Setting
  | null
  | bool (b : Bool)
  | int (n : Int)
  | float (spelling : String)
  | text (s : String)
  | list (items : List Setting)
  | map (entries : List (String × Setting))
  /-- A map that has keys other than texts; nothing can be looked up in it. -/
  | mixedMap
  deriving Inhabited

inductive SettingKind
  | text | int | bool | list | map
  deriving DecidableEq, Inhabited

inductive SettingError
  | notFound
  | notMap (name found : String)
  /-- An error further down, below the rest of the path. -/
  | within (path : String) (cause : SettingError)
  | wrongKind (expected found : String)
  | wrongItem (found : String) (index : Nat)
  | wrongDefault
  deriving DecidableEq, Inhabited

namespace SettingError

def message : SettingError → String
  | notFound => "field not found"
  | notMap name found => name ++ " should be a map, got: " ++ found
  | within path cause => "couldn't get " ++ path ++ ": " ++ cause.message
  | wrongKind expected found => "expected " ++ expected ++ ", got " ++ found
  | wrongItem found index => "expected string slice, got " ++ found ++ " at index " ++ toString index
  | wrongDefault => "runtime"

def root : SettingError → SettingError
  | within _ cause => cause.root
  | e => e

def isNotFound (e : SettingError) : Bool := e.root == notFound

end SettingError

def SettingKind.name : SettingKind → String
  | text => "string"
  | int => "int"
  | bool => "bool"
  | list => "[]interface \x7b\x7d"
  | map => "map[string]interface \x7b\x7d"

namespace Setting

abbrev Fields := List (String × Setting)

def isNarrow (n : Int) : Bool := Int64.minValue.toInt ≤ n && n ≤ Int64.maxValue.toInt

def kindName : Setting → String
  | null => "<nil>"
  | bool _ => SettingKind.bool.name
  | int n => if isNarrow n then SettingKind.int.name else "uint64"
  | float _ => "float64"
  | text _ => SettingKind.text.name
  | list _ => SettingKind.list.name
  | map _ => SettingKind.map.name
  | mixedMap => "map[interface \x7b\x7d]interface \x7b\x7d"

def isOf (k : SettingKind) (s : Setting) : Bool := s.kindName == k.name

def find (fields : Fields) : List String → Except SettingError Setting
  | [] => throw .notFound
  | [name] =>
    match fields.lookup name with
    | some v => pure v
    | none => throw .notFound
  | name :: next :: rest =>
    match fields.lookup name with
    | none => throw .notFound
    | some (.map sub) =>
      match find sub (next :: rest) with
      | .ok v => pure v
      | .error e => throw (.within (".".intercalate (next :: rest)) e)
    | some v => throw (.notMap name v.kindName)

/-- The value of a field, whose name may lead through maps by dots. A missing field has the default, if there
    is one. -/
def get (fields : Fields) (field : String) (default? : Option Setting) : Except SettingError Setting :=
  match find fields (Text.cut '.' field), default? with
  | .error e, some d => if e.isNotFound then pure d else throw e
  | r, _ => r

def getOf (k : SettingKind) (fields : Fields) (field : String) (default? : Option Setting) :
    Except SettingError Setting :=
  match find fields (Text.cut '.' field) with
  | .ok v => if v.isOf k then pure v else throw (.wrongKind k.name v.kindName)
  | .error e =>
    match default? with
    | some d =>
      if !e.isNotFound then throw (.within field e)
      else if d.isOf k then pure d
      else throw .wrongDefault
    | none => throw (.within field e)

def textsFrom (i : Nat) : List Setting → Except SettingError (List String)
  | [] => pure []
  | .text s :: rest => return s :: (← textsFrom (i + 1) rest)
  | v :: _ => throw (.wrongItem v.kindName i)

def getInt (fields : Fields) (field : String) (default? : Option Int) : Except SettingError Int := do
  match ← getOf .int fields field (default?.map .int) with
  | .int n => pure n
  | v => throw (.wrongKind SettingKind.int.name v.kindName)

def getBool (fields : Fields) (field : String) (default? : Option Bool) : Except SettingError Bool := do
  match ← getOf .bool fields field (default?.map .bool) with
  | .bool b => pure b
  | v => throw (.wrongKind SettingKind.bool.name v.kindName)

def getTexts (fields : Fields) (field : String) (default? : Option (List String)) :
    Except SettingError (List String) :=
  match getOf .list fields field none with
  | .ok (.list items) => textsFrom 0 items
  | .ok v => throw (.wrongKind SettingKind.list.name v.kindName)
  | .error e =>
    match default? with
    | some d => if e.isNotFound then pure d else throw e
    | none => throw e

end Setting

end Planwright
