/-! Record graphs: trees whose nodes have a name, fields and named children, laid out as a directed graph
    with numbered node identifiers and printed in the DOT language. -/

namespace Planwright

inductive Record
  | node (name : String) (fields : List (String × String)) (children : List (String × Record))
  deriving Inhabited

structure Edge where
  source : String
  slot : String
  target : String
  deriving DecidableEq, Inhabited

structure Drawing where
  nodes : List (String × String)
  edges : List Edge
  deriving DecidableEq, Inhabited

namespace Record

def sanitize (name : String) : String := name.map fun c => if c.isAlphanum then c else '_'

def isSpecial (c : Char) : Bool :=
  c == '\\' || c == '"' || c == '\x7b' || c == '\x7d' || c == '|' || c == '<' || c == '>'

def escape (s : String) : String :=
  String.ofList (s.toList.flatMap fun c => if isSpecial c then ['\\', c] else [c])

def slotName (i : Nat) : String := "c" ++ toString i

def slotLabels (i : Nat) : List String → List String
  | [] => []
  | name :: rest => ("<" ++ slotName i ++ "> " ++ escape name) :: slotLabels (i + 1) rest

def label (name : String) (fields : List (String × String)) (children : List String) : String :=
  let header := ["<f0> " ++ escape name]
  let fieldPart := if fields.isEmpty then []
    else ["|".intercalate (fields.map fun f => escape f.1 ++ ": " ++ escape f.2)]
  let childPart := if children.isEmpty then [] else ["|".intercalate (slotLabels 0 children)]
  "\"\x7b\x7b" ++ "\x7d|\x7b".intercalate (header ++ fieldPart ++ childPart) ++ "\x7d\x7d\""

abbrev Counts := List (String × Nat)

def nextId (counts : Counts) (name : String) : String × Counts :=
  let n := (counts.lookup name).getD 0
  (sanitize name ++ "_" ++ toString n, (name, n + 1) :: counts.filter (·.1 != name))

/-- Adds a record and all below it to a drawing, and gives its identifier. A node comes before its children,
    the edges inside a child before the edge to it. -/
def place (d : Drawing) (counts : Counts) : Record → String × Drawing × Counts
  | node name fields children =>
    let (id, counts) := nextId counts name
    let d := { d with nodes := d.nodes ++ [(id, label name fields (children.map (·.1)))] }
    let (d, counts) := placeAll id 0 d counts children
    (id, d, counts)
where
  placeAll (parent : String) (i : Nat) (d : Drawing) (counts : Counts) :
      List (String × Record) → Drawing × Counts
    | [] => (d, counts)
    | (_, child) :: rest =>
      let (id, d, counts) := place d counts child
      let d := { d with edges := d.edges ++ [⟨parent, slotName i, id⟩] }
      placeAll parent (i + 1) d counts rest

def draw (r : Record) : Drawing := (r.place ⟨[], []⟩ []).2.1

end Record

namespace Drawing

/-- Puts a node in its place in the order of identifiers. A node with the same identifier is replaced. -/
def insertNode (id label : String) : List (String × String) → List (String × String)
  | [] => [(id, label)]
  | (other, l) :: rest =>
    if id < other then (id, label) :: (other, l) :: rest
    else if id = other then (id, label) :: rest
    else (other, l) :: insertNode id label rest

def sortedNodes (d : Drawing) : List (String × String) :=
  d.nodes.foldl (fun ns n => insertNode n.1 n.2 ns) []

def edgeText (e : Edge) : String := "\t" ++ e.source ++ ":" ++ e.slot ++ "->" ++ e.target ++ ";\n"

def nodeText (n : String × String) : String := "\t" ++ n.1 ++ " [ label=" ++ n.2 ++ ", shape=record ];\n"

def text (d : Drawing) : String :=
  "digraph  \x7b\n\trankdir=LR;\n" ++ String.join (d.edges.map edgeText) ++ String.join (d.sortedNodes.map nodeText)
    ++ "\n\x7d\n"

end Drawing

end Planwright
