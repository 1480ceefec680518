import Planwright.Text.Scan

/-! A reader for the part of YAML that configurations are written in: mappings and lists in blocks and in flow
    form, plain and quoted scalars, comments. -/

namespace Planwright

/-- A document as it is written; what a plain scalar means is decided later. -/
inductive Yaml
  | plain (s : String)
  | quoted (s : String)
  | list (items : List Yaml)
  | map (entries : List (Yaml × Yaml))
  deriving Inhabited

namespace Yaml

def nothing : Yaml := plain ""

structure Line where
  indent : Nat
  text : List Char
  deriving Inhabited

def isBlank (c : Char) : Bool := c == ' ' || c == '\t'

def trimRight (cs : List Char) : List Char := (cs.reverse.dropWhile isBlank).reverse

def skipBlanks (cs : List Char) : List Char := cs.dropWhile isBlank

/-- Where a comment reader stands: outside quotes, or inside quotes of a kind. -/
inductive Place
  | outside | single | double
  deriving DecidableEq

def opensQuote (previous : Option Char) : Bool :=
  match previous with
  | none => true
  | some c => isBlank c || c == '[' || c == '\x7b' || c == ',' || c == ':'

def dropComment (place : Place) (previous : Option Char) : List Char → List Char
  | [] => []
  | c :: rest =>
    match place with
    | .outside =>
      if c == '#' && (previous.isNone || previous.any isBlank) then []
      else if c == '"' && opensQuote previous then c :: dropComment .double (some c) rest
      else if c == '\'' && opensQuote previous then c :: dropComment .single (some c) rest
      else c :: dropComment .outside (some c) rest
    | .single => c :: dropComment (if c == '\'' then .outside else .single) (if c == '\'' then some ',' else some c) rest
    | .double =>
      match c, rest with
      | '\\', d :: rest => '\\' :: d :: dropComment .double (some d) rest
      | c, rest => c :: dropComment (if c == '"' then .outside else .double) (some c) rest

def line (cs : List Char) : Option (List Line) :=
  let (blanks, rest) := cs.span (· == ' ')
  let text := trimRight (dropComment .outside none (rest.filter (· != '\r')))
  match text with
  | [] => some []
  | '\t' :: more => if (skipBlanks more).isEmpty then some [] else none
  | text => some [⟨blanks.length, text⟩]

def documentLines (ls : List Line) : List Line :=
  let isMark (s : String) (l : Line) : Bool := l.indent == 0 && l.text == s.toList
  let ls := ls.dropWhile fun l => l.indent == 0 && l.text.head? == some '%'
  let ls := match ls with
    | l :: rest => if isMark "---" l then rest else l :: rest
    | [] => []
  ls.takeWhile fun l => !isMark "---" l && !isMark "..." l

def singleQuoted : List Char → Option (List Char × List Char)
  | [] => none
  | '\'' :: '\'' :: rest => (singleQuoted rest).map fun (s, r) => ('\'' :: s, r)
  | '\'' :: rest => some ([], rest)
  | c :: rest => (singleQuoted rest).map fun (s, r) => (c :: s, r)

def escaped? : Char → Option Char
  | '0' => some (Char.ofNat 0)
  | 'a' => some (Char.ofNat 7)
  | 'b' => some (Char.ofNat 8)
  | 't' | '\t' => some '\t'
  | 'n' => some '\n'
  | 'v' => some (Char.ofNat 11)
  | 'f' => some (Char.ofNat 12)
  | 'r' => some '\r'
  | 'e' => some (Char.ofNat 27)
  | ' ' => some ' '
  | '"' => some '"'
  | '\'' => some '\''
  | '/' => some '/'
  | '\\' => some '\\'
  | 'N' => some (Char.ofNat 0x85)
  | '_' => some (Char.ofNat 0xa0)
  | 'L' => some (Char.ofNat 0x2028)
  | 'P' => some (Char.ofNat 0x2029)
  | _ => none

def hexLength? : Char → Option Nat
  | 'x' => some 2
  | 'u' => some 4
  | 'U' => some 8
  | _ => none

/-- The rest of a scalar in double quotes. The fuel is its length. -/
def doubleQuoted : Nat → List Char → Option (List Char × List Char)
  | 0, _ => none
  | _ + 1, [] => none
  | _ + 1, '"' :: rest => some ([], rest)
  | fuel + 1, '\\' :: c :: rest =>
    match hexLength? c with
    | some n => do
      let digits := rest.take n
      if digits.length < n then none
      else
        let code ← Text.hexNat? digits
        let (s, r) ← doubleQuoted fuel (rest.drop n)
        some (Char.ofNat code :: s, r)
    | none => do
      let d ← escaped? c
      let (s, r) ← doubleQuoted fuel rest
      some (d :: s, r)
  | fuel + 1, c :: rest => (doubleQuoted fuel rest).map fun (s, r) => (c :: s, r)

def quotedScalar? : List Char → Option (Yaml × List Char)
  | '"' :: rest => (doubleQuoted (rest.length + 1) rest).map fun (s, r) => (quoted (String.ofList s), r)
  | '\'' :: rest => (singleQuoted rest).map fun (s, r) => (quoted (String.ofList s), r)
  | _ => none

def endsKey (inFlow : Bool) : List Char → Bool
  | [] => true
  | c :: _ => isBlank c || (inFlow && (c == ',' || c == '[' || c == ']' || c == '\x7b' || c == '\x7d'))

def splitColon (inFlow : Bool) : List Char → Option (List Char × List Char)
  | [] => none
  | ':' :: rest =>
    if endsKey inFlow rest then some ([], rest) else (splitColon inFlow rest).map fun (k, r) => (':' :: k, r)
  | c :: rest => (splitColon inFlow rest).map fun (k, r) => (c :: k, r)

def startsPlain : List Char → Bool
  | [] => true
  | [c] => !"-?:,[]\x7b\x7d#&*!|>'\"%@".toList.contains c && c.toNat != 0x60
  | c :: d :: _ =>
    if c == '-' || c == '?' || c == ':' then !isBlank d
    else !",[]\x7b\x7d#&*!|>'\"%@".toList.contains c && c.toNat != 0x60

def plainScalar? (cs : List Char) : Option Yaml :=
  if startsPlain cs && (splitColon false cs).isNone then some (plain (String.ofList cs)) else none

def isFlowMark (c : Char) : Bool := c == ',' || c == '[' || c == ']' || c == '\x7b' || c == '\x7d'

def flowPlain : List Char → List Char × List Char
  | [] => ([], [])
  | c :: rest =>
    if isFlowMark c || (c == ':' && endsKey true rest) then ([], c :: rest)
    else
      let (s, r) := flowPlain rest
      (c :: s, r)

mutual

def flow : Nat → List Char → Option (Yaml × List Char)
  | 0, _ => none
  | fuel + 1, cs =>
    match skipBlanks cs with
    | '[' :: rest => (flowItems fuel rest).map fun (items, r) => (list items, r)
    | '\x7b' :: rest => (flowEntries fuel rest).map fun (entries, r) => (map entries, r)
    | '"' :: rest => quotedScalar? ('"' :: rest)
    | '\'' :: rest => quotedScalar? ('\'' :: rest)
    | cs =>
      let (s, r) := flowPlain cs
      if startsPlain s then some (plain (String.ofList (trimRight s)), r) else none

def flowItems : Nat → List Char → Option (List Yaml × List Char)
  | 0, _ => none
  | fuel + 1, cs =>
    match skipBlanks cs with
    | ']' :: rest => some ([], rest)
    | ',' :: _ => none
    | cs => do
      let (item, r) ← flowPair fuel cs
      match skipBlanks r with
      | ',' :: rest => do
        let (items, r) ← flowItems fuel rest
        some (item :: items, r)
      | ']' :: rest => some ([item], rest)
      | _ => none

def flowPair : Nat → List Char → Option (Yaml × List Char)
  | 0, _ => none
  | fuel + 1, cs => do
    let (k, r) ← flow fuel cs
    match skipBlanks r with
    | ':' :: rest =>
      let (v, r) ← flowValue fuel rest
      some (map [(k, v)], r)
    | _ => some (k, r)

def flowValue : Nat → List Char → Option (Yaml × List Char)
  | 0, _ => none
  | fuel + 1, cs =>
    match skipBlanks cs with
    | ',' :: rest => some (nothing, ',' :: rest)
    | ']' :: rest => some (nothing, ']' :: rest)
    | '\x7d' :: rest => some (nothing, '\x7d' :: rest)
    | cs => flow fuel cs

def flowEntries : Nat → List Char → Option (List (Yaml × Yaml) × List Char)
  | 0, _ => none
  | fuel + 1, cs =>
    match skipBlanks cs with
    | '\x7d' :: rest => some ([], rest)
    | ',' :: _ => none
    | cs => do
      let (k, r) ← flow fuel cs
      let (v, r) ← match skipBlanks r with
        | ':' :: rest => flowValue fuel rest
        | r => some (nothing, r)
      match skipBlanks r with
      | ',' :: rest => do
        let (entries, r) ← flowEntries fuel rest
        some ((k, v) :: entries, r)
      | '\x7d' :: rest => some ([(k, v)], rest)
      | _ => none

end

def dash? : List Char → Option (Nat × List Char)
  | ['-'] => some (1, [])
  | '-' :: rest =>
    let (blanks, content) := rest.span isBlank
    if blanks.isEmpty then none else some (1 + blanks.length, content)
  | _ => none

def keyed? (cs : List Char) : Option (Yaml × List Char) :=
  match quotedScalar? cs with
  | some (k, r) =>
    match skipBlanks r with
    | ':' :: rest => if endsKey false rest then some (k, skipBlanks rest) else none
    | _ => none
  | none =>
    if cs.head?.any fun c => c == '[' || c == '\x7b' || c == '"' || c == '\'' then none
    else (splitColon false cs).bind fun (k, r) =>
      if startsPlain k then some (plain (String.ofList (trimRight k)), skipBlanks r) else none

def inline (least : Nat) : Nat → List Char → List Line → Option (Yaml × List Line)
  | 0, _, _ => none
  | fuel + 1, cs, rest =>
    if cs.head?.any fun c => c == '[' || c == '\x7b' || c == '"' || c == '\'' then
      match flow (2 * cs.length + 2) cs with
      | some (v, r) => if (skipBlanks r).isEmpty then some (v, rest) else none
      | none =>
        match rest with
        | l :: more => inline least fuel (cs ++ ' ' :: l.text) more
        | [] => none
    else
      let (more, rest) := rest.span fun l => least ≤ l.indent
      (plainScalar? (more.foldl (fun cs l => cs ++ ' ' :: l.text) cs)).map (·, rest)

mutual

def block : Nat → List Line → Option (Yaml × List Line)
  | 0, _ => none
  | _ + 1, [] => some (nothing, [])
  | fuel + 1, l :: rest =>
    if (dash? l.text).isSome then (items fuel l.indent (l :: rest)).map fun (vs, r) => (list vs, r)
    else if (keyed? l.text).isSome then (entries fuel l.indent (l :: rest)).map fun (es, r) => (map es, r)
    else inline l.indent (rest.length + 1) l.text rest

def items : Nat → Nat → List Line → Option (List Yaml × List Line)
  | 0, _, _ => none
  | _ + 1, _, [] => some ([], [])
  | fuel + 1, indent, l :: rest =>
    if l.indent < indent then some ([], l :: rest)
    else if l.indent > indent then none
    else
      match dash? l.text with
      | none => some ([], l :: rest)
      | some (offset, content) => do
        let (v, rest) ←
          if content.isEmpty then nested fuel indent rest
          else if (dash? content).isSome || (keyed? content).isSome then block fuel (⟨indent + offset, content⟩ :: rest)
          else inline (indent + 1) (rest.length + 1) content rest
        let (vs, rest) ← items fuel indent rest
        some (v :: vs, rest)

def entries : Nat → Nat → List Line → Option (List (Yaml × Yaml) × List Line)
  | 0, _, _ => none
  | _ + 1, _, [] => some ([], [])
  | fuel + 1, indent, l :: rest =>
    if l.indent < indent then some ([], l :: rest)
    else if l.indent > indent then none
    else
      match keyed? l.text with
      | none => none
      | some (k, content) => do
        let (v, rest) ←
          if !content.isEmpty then inline (indent + 1) (rest.length + 1) content rest
          else
            match rest with
            | next :: _ =>
              if next.indent = indent ∧ (dash? next.text).isSome then
                (items fuel indent rest).map fun (vs, r) => (list vs, r)
              else nested fuel indent rest
            | [] => some (nothing, [])
        let (es, rest) ← entries fuel indent rest
        some ((k, v) :: es, rest)

def nested : Nat → Nat → List Line → Option (Yaml × List Line)
  | 0, _, _ => none
  | _ + 1, _, [] => some (nothing, [])
  | fuel + 1, indent, l :: rest =>
    if l.indent > indent then block fuel (l :: rest) else some (nothing, l :: rest)

end

/-- Reads the first document of a text. A text without a document cannot be read. -/
def ofText? (s : String) : Option Yaml := do
  let ls ← (s.splitOn "\n").mapM fun l => line l.toList
  let all := ls.flatten
  if all.isEmpty then none
  else
    let ls := documentLines all
    match block (4 * s.length + 4) ls with
    | some (v, []) => some v
    | _ => none

end Yaml

end Planwright
