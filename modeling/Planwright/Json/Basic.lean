import Planwright.Text.Scan

/-! JSON values that keep the spelling of what they were read from: strings keep their escapes and numbers
    their digits, so that a value can be written out again exactly, blanks apart. -/

namespace Planwright

/-- A JSON value as spelled. Strings and member names are what stands between the quotes. -/
inductive Json
  | object (members : List (String × Json))
  | array (items : List Json)
  | string (spelling : String)
  | number (spelling : String)
  | boolean (holds : Bool)
  | null
  deriving Inhabited

namespace Json

def kindText : Json → String
  | object _ => "object"
  | array _ => "array"
  | string _ => "string"
  | number _ => "number"
  | boolean true => "true"
  | boolean false => "false"
  | null => "null"

def isHighOrLow (n : Nat) : Bool := 0xd800 ≤ n && n ≤ 0xdfff

/-- The character of a surrogate pair; a wrong pair stands for the replacement character. -/
def ofPair (high low : Nat) : Char :=
  if high < 0xdc00 && 0xdc00 ≤ low && low ≤ 0xdfff then
    Char.ofNat (0x10000 + (high - 0xd800) * 0x400 + (low - 0xdc00))
  else Char.ofNat 0xfffd

/-- The text after `\u`: four digits for a character, or two times four for a surrogate pair. What does
    not fit stays as it is. -/
def unicodeEscape (cs : List Char) : List Char × List Char :=
  match Text.hexNat? (cs.take 4), (cs.take 4).length with
  | some n, 4 =>
    let rest := cs.drop 4
    if !isHighOrLow n then ([Char.ofNat n], rest)
    else
      match rest with
      | '\\' :: 'u' :: more =>
        match Text.hexNat? (more.take 4), (more.take 4).length with
        | some low, 4 => ([ofPair n low], more.drop 4)
        | _, _ => ('\\' :: 'u' :: cs.take 4, rest)
      | rest => ('\\' :: 'u' :: cs.take 4, rest)
  | _, _ => (['\\', 'u'], cs)

def letterEscape? : Char → Option Char
  | '"' => some '"'
  | '\\' => some '\\'
  | '/' => some '/'
  | 'b' => some (Char.ofNat 8)
  | 'f' => some (Char.ofNat 12)
  | 'n' => some '\n'
  | 'r' => some '\r'
  | 't' => some '\t'
  | _ => none

/-- Replaces escapes by what they stand for. An unknown escape stays as it is. -/
def unescape : Nat → List Char → List Char
  | 0, cs => cs
  | _ + 1, [] => []
  | fuel + 1, '\\' :: c :: cs =>
    if c == 'u' then
      let (out, rest) := unicodeEscape cs
      out ++ unescape fuel rest
    else
      match letterEscape? c with
      | some d => d :: unescape fuel cs
      | none => '\\' :: c :: unescape fuel cs
  | fuel + 1, c :: cs => c :: unescape fuel cs

def decode (spelling : String) : String :=
  let cs := spelling.toList
  if cs.contains '\\' then String.ofList (unescape cs.length cs) else spelling

def findSpelled (name : String) (members : List (String × Json)) : Option Json :=
  (members.find? (·.1 == name)).map (·.2)

def findDecoded (name : String) (members : List (String × Json)) : Option Json :=
  (members.find? fun m => decode m.1 == name).map (·.2)

/-- Looks up a member of an object after the members in `earlier` were looked up. Names are compared as
    spelled until a look-up fails to find its name that way; from then on escapes count. -/
def get? (earlier : List String) (name : String) : Json → Option Json
  | object members =>
    if earlier.all fun e => (findSpelled e members).isSome then
      match findSpelled name members with
      | some v => some v
      | none => findDecoded name members
    else findDecoded name members
  | _ => none

def text? : Json → Option String
  | string spelling => some (decode spelling)
  | _ => none

def items : Json → List Json
  | array items => items
  | _ => []

def members? : Json → Option (List (String × Json))
  | object members => some (members.map fun m => (decode m.1, m.2))
  | _ => none

def isTrue : Json → Bool
  | boolean holds => holds
  | _ => false

def quoted (spelling : String) : String := "\"" ++ spelling ++ "\""

def render : Json → String
  | object members => "\x7b" ++ ",".intercalate (fields members) ++ "\x7d"
  | array items => "[" ++ ",".intercalate (items.map render) ++ "]"
  | string spelling => quoted spelling
  | number spelling => spelling
  | boolean holds => if holds then "true" else "false"
  | null => "null"
where
  fields : List (String × Json) → List String
    | [] => []
    | (name, value) :: rest => (quoted name ++ ":" ++ value.render) :: fields rest

end Json

end Planwright
