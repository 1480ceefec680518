import Planwright.Json.Basic

/-! Reading JSON. The reader takes every JSON text and more: numbers are runs of number characters that
    nobody checks here, strings may hold raw line feeds, and `inf` and `nan` are numbers. -/

namespace Planwright.Json

def depthLimit : Nat := 300

def isBlank (c : Char) : Bool := c == ' ' || c == '\n' || c == '\r' || c == '\t'

def skipBlanks (cs : List Char) : List Char := cs.dropWhile isBlank

/-- A string up to the first quote that is not escaped, which is one behind an even number of
    backslashes. -/
def scanString (escaped : Bool) (acc : List Char) : List Char → Option (String × List Char)
  | [] => none
  | c :: cs =>
    if c == '"' && !escaped then some (String.ofList acc.reverse, cs)
    else scanString (c == '\\' && !escaped) (c :: acc) cs

def isNumberChar (c : Char) : Bool := c.isDigit || c == '.' || c == '-' || c == '+' || c == 'e' || c == 'E'

def scanWord? : List Char → Option (List Char × List Char)
  | a :: b :: c :: cs =>
    let word := Text.lower (String.ofList [a, b, c])
    if word == "inf" || word == "nan" then some ([a, b, c], cs) else none
  | _ => none

/-- A run of number characters. An empty run, or a sign alone with something behind it, must be
    followed by one of the words. -/
def scanNumber (cs : List Char) : Option (String × List Char) :=
  let (run, rest) := cs.span isNumberChar
  let needsWord := match run with
    | [] => true
    | ['-'] | ['+'] => !rest.isEmpty
    | _ => false
  if needsWord then
    (scanWord? rest).map fun (word, rest) => (String.ofList (run ++ word), rest)
  else some (String.ofList run, rest)

def scanLiteral? : List Char → List Char → Option (List Char)
  | [], cs => some cs
  | w :: ws, c :: cs => if w == c then scanLiteral? ws cs else none
  | _ :: _, [] => none

def closing (named : Bool) : Char := if named then '\x7d' else ']'

/-- An object if its entries are named, else an array. -/
def collection (named : Bool) (es : List (String × Json)) : Json := if named then object es else array (es.map (·.2))

/-- The name of an entry and the colon behind it. The entries of an array have none. -/
def scanName (named : Bool) (cs : List Char) : Option (String × List Char) :=
  if named then
    match skipBlanks cs with
    | '"' :: cs => do
      let (name, cs) ← scanString false [] cs
      match skipBlanks cs with
      | ':' :: cs => return (name, cs)
      | _ => none
    | _ => none
  else some ("", cs)

/-- What stands behind an opening mark. -/
def enclosed (named : Bool) (entries : List Char → Option (List (String × Json) × List Char)) (cs : List Char) :
    Option (Json × List Char) :=
  let cs := skipBlanks cs
  if cs.head? = some (closing named) then some (collection named [], cs.tail)
  else (entries cs).map fun (es, cs) => (collection named es, cs)

mutual

/-- A value at the front, below `depth` enclosing ones. The fuel counts calls. -/
def value : (fuel depth : Nat) → List Char → Option (Json × List Char)
  | 0, _, _ => none
  | fuel + 1, depth, cs =>
    if depth ≥ depthLimit then none
    else
      match cs with
      | [] => none
      | '\x7b' :: cs => enclosed true (entries fuel true (depth + 1)) cs
      | '[' :: cs => enclosed false (entries fuel false (depth + 1)) cs
      | '"' :: cs => (scanString false [] cs).map fun (s, cs) => (string s, cs)
      | 't' :: _ => (scanLiteral? ['t', 'r', 'u', 'e'] cs).map fun cs => (boolean true, cs)
      | 'f' :: _ => (scanLiteral? ['f', 'a', 'l', 's', 'e'] cs).map fun cs => (boolean false, cs)
      | 'n' :: _ =>
        match scanLiteral? ['n', 'u', 'l', 'l'] cs with
        | some cs => some (null, cs)
        | none => (scanWord? cs).map fun (word, cs) => (number (String.ofList word), cs)
      | cs => (scanNumber cs).map fun (s, cs) => (number s, cs)

def entries : (fuel : Nat) → (named : Bool) → (depth : Nat) → List Char → Option (List (String × Json) × List Char)
  | 0, _, _, _ => none
  | fuel + 1, named, depth, cs => do
    let (name, cs) ← scanName named cs
    let (v, cs) ← value fuel depth (skipBlanks cs)
    match skipBlanks cs with
    | ',' :: cs =>
      let (es, cs) ← entries fuel named depth cs
      return ((name, v) :: es, cs)
    | c :: cs => if c = closing named then return ([(name, v)], cs) else none
    | [] => none

end

def ofText? (s : String) : Option Json :=
  let cs := skipBlanks s.toList
  match value (2 * cs.length + 2) 0 cs with
  | some (v, rest) => if (skipBlanks rest).isEmpty then some v else none
  | none => none

end Planwright.Json
