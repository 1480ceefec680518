import Planwright.Config.Setting
import Planwright.Config.Yaml
import Planwright.Rule.Options
import Planwright.Text.Integer

/-! The configuration: options of the optimizer and the size of the cache, read from a file. -/

namespace Planwright

/-! ### What scalars mean -/

namespace Setting

def isFloat (cs : List Char) : Bool :=
  let unsigned := match cs with
    | '-' :: cs | '+' :: cs => cs
    | cs => cs
  let (whole, rest) := Text.digits unsigned
  let (places, rest, hasPoint) := match rest with
    | '.' :: rest => let (d, r) := Text.digits rest; (d, r, true)
    | rest => ([], rest, false)
  let mantissa := !whole.isEmpty || (hasPoint && !places.isEmpty)
  let exponent := match rest with
    | [] => true
    | c :: rest =>
      if c != 'e' && c != 'E' then false
      else
        let digits := match rest with
          | '-' :: ds | '+' :: ds => ds
          | ds => ds
        !digits.isEmpty && digits.all Char.isDigit
  mantissa && exponent

/-- A number: an integer, a wider integer without a sign, or a number with a fraction. Underscores divide
    digits. -/
def number? (s : String) : Option Setting :=
  if !(s.toList.head?.any fun c => c.isDigit || c == '-' || c == '+' || c == '.') then none
  else
    let digits := String.ofList (s.toList.filter (· != '_'))
    match Text.readInteger digits with
    | .ok n => some (.int n)
    | .error _ =>
      match wide? digits.toList with
      | some n => some (.int n)
      | none => if isFloat digits.toList then some (.float digits) else none
where
  wide? (cs : List Char) : Option Nat :=
    let (base, digits) := Text.baseOf cs
    if cs.isEmpty then none else (Text.readDigits base 0 digits).toOption

def ofPlain (s : String) : Setting :=
  if ["", "~", "null", "Null", "NULL"].contains s then .null
  else if ["true", "True", "TRUE"].contains s then .bool true
  else if ["false", "False", "FALSE"].contains s then .bool false
  else if [".nan", ".NaN", ".NAN", ".inf", ".Inf", ".INF", "+.inf", "+.Inf", "+.INF", "-.inf", "-.Inf", "-.INF"].contains s
    then .float s
  else (number? s).getD (.text s)

end Setting

namespace Yaml

def scalarText? : Yaml → Option String
  | plain s | quoted s => some s
  | _ => none

def isTextKey : Yaml → Bool
  | quoted _ => true
  | plain s => (Setting.ofPlain s).isOf .text
  | _ => false

def hasRepeatedKey (entries : List (Yaml × Yaml)) : Bool :=
  let keys := entries.filterMap fun e => e.1.scalarText?
  keys.any fun k => keys.count k > 1

/-- The value of a node. A mapping may not have a key twice. -/
def setting? : Yaml → Option Setting
  | plain s => some (Setting.ofPlain s)
  | quoted s => some (.text s)
  | list items => (settings? items).map .list
  | map entries =>
    if hasRepeatedKey entries then none
    else
      match fields? entries with
      | none => none
      | some fs => some (if entries.all fun e => e.1.isTextKey then .map fs else .mixedMap)
where
  settings? : List Yaml → Option (List Setting)
    | [] => some []
    | v :: vs =>
      match setting? v, settings? vs with
      | some s, some ss => some (s :: ss)
      | _, _ => none
  fields? : List (Yaml × Yaml) → Option (List (String × Setting))
    | [] => some []
    | (k, v) :: es =>
      match setting? v, fields? es with
      | some s, some fs => some ((k.scalarText?.getD "", s) :: fs)
      | _, _ => none

/-- The fields of a section, which is a mapping with any scalars as keys, or empty. -/
def section? : Yaml → Option Setting.Fields
  | plain s =>
    match Setting.ofPlain s with
    | .null => some []
    | _ => none
  | map entries => if hasRepeatedKey entries then none else setting?.fields? entries
  | _ => none

end Yaml

structure Config where
  optimizer : Setting.Fields
  cache : Setting.Fields

namespace Config

def empty : Config := ⟨[], []⟩

def sectionOf? (entries : List (Yaml × Yaml)) (name : String) : Option Setting.Fields :=
  match entries.filter fun e => e.1.scalarText? == some name with
  | [] => some []
  | [e] => e.2.section?
  | _ => none

def ofText? (s : String) : Option Config := do
  match ← Yaml.ofText? s with
  | .map entries =>
    let optimizer ← sectionOf? entries "optimizer"
    let cache ← sectionOf? entries "cache"
    some ⟨optimizer, cache⟩
  | .plain s =>
    match Setting.ofPlain s with
    | .null => some empty
    | _ => none
  | _ => none

def unreadableMessage : String := "couldn't decode yaml configuration"

def named {α : Type} (field : String) (read : String → Except SettingError α) : Except SettingError α :=
  match read field with
  | .ok a => pure a
  | .error e => throw (.within field e)

/-- The options of the optimizer; what is not configured is as usual. -/
def options (c : Config) : Except SettingError Options := do
  let usual := Options.standard
  let maxNodeCount ← named "maxNodeCount" fun f => Setting.getInt c.optimizer f (some usual.maxNodeCount)
  let maxScalarTreeSize ← named "maxScalarTreeSize" fun f =>
    Setting.getInt c.optimizer f (some usual.maxScalarTreeSize)
  let ansiNullSemantics ← named "ansiNullSemantics" fun f =>
    Setting.getBool c.optimizer f (some usual.ansiNullSemantics)
  let verbose ← named "verbose" fun f => Setting.getBool c.optimizer f (some false)
  let disabledRules ← named "disabledRules" fun f => Setting.getTexts c.optimizer f (some [])
  return { maxNodeCount, maxScalarTreeSize, ansiNullSemantics, verbose, disabledRules }

def cacheSize (c : Config) : Except SettingError Int := Setting.getInt c.cache "maxEntries" (some 1024)

end Config

end Planwright
