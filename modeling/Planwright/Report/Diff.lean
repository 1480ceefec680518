/-! Differences between texts, line by line, in unified form. The longest run of common lines is found first, then
    the same is done before and after it. -/

namespace Planwright.Diff

structure Block where
  left : Nat
  right : Nat
  size : Nat
  deriving DecidableEq, Inhabited

inductive Tag
  | equal | replace | delete | insert
  deriving DecidableEq, Inhabited

structure Edit where
  tag : Tag
  left : Nat × Nat
  right : Nat × Nat
  deriving DecidableEq, Inhabited

/-- Lines that keep their ends. The last line gets one. -/
def lines (s : String) : Array String := ((s.splitOn "\n").map (· ++ "\n")).toArray

/-- Where each line of the left side stands on the right, in ascending order. From 200 lines on, a line that makes
    up more than one in a hundred is not looked for. -/
def places (a b : Array String) : Array (List Nat) :=
  let n := b.size
  a.map fun line =>
    let found := (List.range n).filter fun j => b[j]? == some line
    if n ≥ 200 && found.length > n / 100 + 1 then [] else found

/-- One line further: the lengths of the common runs that end with line `i` on the left, by where they end on the
    right, and the longest run so far. -/
def advance (low high : Nat) (i : Nat) (found : List Nat) (runs : List (Nat × Nat)) (best : Block) :
    List (Nat × Nat) × Block :=
  found.foldl
    (fun (acc : List (Nat × Nat) × Block) j =>
      if j < low || high ≤ j then acc
      else
        let k := (if j = 0 then 0 else (runs.lookup (j - 1)).getD 0) + 1
        let best := if k > acc.2.size then ⟨i + 1 - k, j + 1 - k, k⟩ else acc.2
        ((j, k) :: acc.1, best))
    ([], best)

def extendBack (a b : Array String) (alo blo : Nat) : Nat → Block → Block
  | 0, m => m
  | fuel + 1, m =>
    if alo < m.left && blo < m.right && a[m.left - 1]? == b[m.right - 1]? then
      extendBack a b alo blo fuel ⟨m.left - 1, m.right - 1, m.size + 1⟩
    else m

def extendForward (a b : Array String) (ahi bhi : Nat) : Nat → Block → Block
  | 0, m => m
  | fuel + 1, m =>
    if m.left + m.size < ahi && m.right + m.size < bhi && a[m.left + m.size]? == b[m.right + m.size]? then
      extendForward a b ahi bhi fuel { m with size := m.size + 1 }
    else m

def longest (a b : Array String) (found : Array (List Nat)) (alo ahi blo bhi : Nat) : Block :=
  let (_, best) := (List.range (ahi - alo)).foldl
    (fun (acc : List (Nat × Nat) × Block) d =>
      let i := alo + d
      advance blo bhi i (found[i]?.getD []) acc.1 acc.2)
    ([], ⟨alo, blo, 0⟩)
  extendForward a b ahi bhi (ahi - alo) (extendBack a b alo blo (ahi - alo) best)

/-- The common runs within ranges of both sides, in order. Every run takes lines from the left range, so its
    length bounds the depth. -/
def blocks (a b : Array String) (found : Array (List Nat)) :
    (fuel : Nat) → (alo ahi blo bhi : Nat) → List Block
  | 0, _, _, _, _ => []
  | fuel + 1, alo, ahi, blo, bhi =>
    let m := longest a b found alo ahi blo bhi
    if m.size = 0 then []
    else
      let before := if alo < m.left && blo < m.right then blocks a b found fuel alo m.left blo m.right else []
      let i := m.left + m.size
      let j := m.right + m.size
      let after := if i < ahi && j < bhi then blocks a b found fuel i ahi j bhi else []
      before ++ m :: after

def joined : List Block → List Block
  | m :: n :: rest =>
    if m.left + m.size = n.left ∧ m.right + m.size = n.right then joined (⟨m.left, m.right, m.size + n.size⟩ :: rest)
    else m :: joined (n :: rest)
  | rest => rest
termination_by ms => ms.length

def editsFrom (i j : Nat) : List Block → List Edit
  | [] => []
  | m :: rest =>
    let gap : List Edit :=
      if i < m.left && j < m.right then [⟨.replace, (i, m.left), (j, m.right)⟩]
      else if i < m.left then [⟨.delete, (i, m.left), (j, m.right)⟩]
      else if j < m.right then [⟨.insert, (i, m.left), (j, m.right)⟩]
      else []
    let i' := m.left + m.size
    let j' := m.right + m.size
    let same : List Edit := if m.size > 0 then [⟨.equal, (m.left, i'), (m.right, j')⟩] else []
    gap ++ same ++ editsFrom i' j' rest

def edits (a b : Array String) : List Edit :=
  let common := joined (blocks a b (places a b) (a.size + 1) 0 a.size 0 b.size)
  editsFrom 0 0 (common ++ [⟨a.size, b.size, 0⟩])

def Edit.lastLines (n : Nat) (e : Edit) : Edit :=
  if e.tag = .equal then
    { e with left := (max e.left.1 (e.left.2 - n), e.left.2), right := (max e.right.1 (e.right.2 - n), e.right.2) }
  else e

def Edit.firstLines (n : Nat) (e : Edit) : Edit :=
  if e.tag = .equal then
    { e with left := (e.left.1, min e.left.2 (e.left.1 + n)), right := (e.right.1, min e.right.2 (e.right.1 + n)) }
  else e

/-- Edits in groups with up to `n` equal lines around them. A group ends where more than `2 * n` lines are
    equal. -/
def grouped (n : Nat) (group : List Edit) : List Edit → List (List Edit)
  | [] => [group]
  | e :: rest =>
    if e.tag = .equal ∧ e.left.2 - e.left.1 > 2 * n then
      (group ++ [e.firstLines n]) :: grouped n [e.lastLines n] rest
    else grouped n (group ++ [e]) rest

def isChange : List Edit → Bool
  | [] => false
  | [e] => e.tag != .equal
  | _ => true

/-- The groups of edits to print: equal lines at the very start and end are cut, and what would be a last group
    without a change is dropped. -/
def hunks (n : Nat) (es : List Edit) : List (List Edit) :=
  let es := match es with
    | [] => []
    | first :: rest => first.lastLines n :: rest
  let es := match es.getLast? with
    | none => []
    | some last => es.dropLast ++ [last.firstLines n]
  let groups := grouped n [] es
  groups.dropLast ++ (groups.getLast?.toList.filter isChange)

/-- A range of lines, counted from one. A single line has no length, and an empty range stands after the line
    before it. -/
def rangeText (start stop : Nat) : String :=
  let length := stop - start
  if length = 1 then toString (start + 1)
  else toString (if length = 0 then start else start + 1) ++ "," ++ toString length

def marked (mark : String) (ls : Array String) (range : Nat × Nat) : String :=
  String.join ((ls.extract range.1 range.2).toList.map (mark ++ ·))

def editText (a b : Array String) (e : Edit) : String :=
  match e.tag with
  | .equal => marked " " a e.left
  | .replace => marked "-" a e.left ++ marked "+" b e.right
  | .delete => marked "-" a e.left
  | .insert => marked "+" b e.right

def hunkText (a b : Array String) (es : List Edit) : String :=
  match es.head?, es.getLast? with
  | some first, some last =>
    "@@ -" ++ rangeText first.left.1 last.left.2 ++ " +" ++ rangeText first.right.1 last.right.2 ++ " @@\n"
      ++ String.join (es.map (editText a b))
  | _, _ => ""

def unified (n : Nat) (fromTitle toTitle : String) (before after : String) : String :=
  let a := lines before
  let b := lines after
  match hunks n (edits a b) with
  | [] => ""
  | hs => "--- " ++ fromTitle ++ "\n+++ " ++ toTitle ++ "\n" ++ String.join (hs.map (hunkText a b))

end Planwright.Diff
