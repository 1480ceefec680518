import Planwright.Text.Width

/-! Grids: tables of text with borders. Cells may be wrapped between words, headers are centred, numbers stand to
    the right and all else to the left. -/

namespace Planwright

structure Grid where
  header : List String
  rows : List (List String)
  wrapAt : Option Nat

namespace Grid

structure Layout where
  cost : Nat
  lines : List (List String)

def lineWidth (ws : List String) : Nat := ws.foldl (fun n w => n + Text.width w) (ws.length - 1)

/-- What a line adds to the raggedness: the square of what it leaves free. A line that is too long is worse
    than any other. -/
def lineCost (limit : Nat) (line : List String) : Nat :=
  let gap : Int := (limit : Int) - lineWidth line
  (gap * gap).toNat + if lineWidth line > limit then 100000 else 0

/-- The least ragged way to go on after a first line, among the given ways for what follows shorter and longer
    first lines; the shortest first line wins among equals. -/
def bestBreak (limit : Nat) (ws : List String) (below : List Layout) : Layout :=
  let candidates := (List.range (ws.length - 1)).zip below |>.map fun (k, rest) =>
    let line := ws.take (k + 1)
    (⟨lineCost limit line + rest.cost, line :: rest.lines⟩ : Layout)
  match candidates with
  | [] => ⟨0, [ws]⟩
  | first :: others => others.foldl (fun best l => if l.cost < best.cost then l else best) first

/-- The least ragged ways for all the ends of a list of words, the whole list first. The last line costs
    nothing. -/
def layouts (limit : Nat) : List String → List Layout
  | [] => [⟨0, []⟩]
  | w :: rest =>
    let below := layouts limit rest
    let whole := if lineWidth (w :: rest) ≤ limit then ⟨0, [w :: rest]⟩ else bestBreak limit (w :: rest) below
    whole :: below

def wrapped (limit : Nat) (s : String) : List String :=
  let ws := Text.words s
  let limit := ws.foldl (fun l w => max l (Text.width w)) limit
  match layouts limit ws with
  | [] => []
  | best :: _ => best.lines.map (" ".intercalate ·)

/-- A cell as lines, and the width it asks for. A wrapped cell keeps the width of its text as far as the limit
    allows. -/
def cell (wrapAt : Option Nat) (s : String) : List String × Nat :=
  let lines := Text.cut '\n' s
  let widest := fun (w : Nat) (ls : List String) => ls.foldl (fun w l => max w (Text.width l)) w
  let natural := widest 0 lines
  match wrapAt with
  | none => (lines, natural)
  | some limit =>
    let room := min natural limit
    let lines := wrapped room (" ".intercalate lines)
    (lines, widest room lines)

def blanks (n : Nat) : String := String.ofList (List.replicate n ' ')

def centred (width : Nat) (s : String) : String :=
  let gap := width - Text.width s
  blanks (gap / 2) ++ s ++ blanks (gap - gap / 2)

def atLeft (width : Nat) (s : String) : String := s ++ blanks (width - Text.width s)

def atRight (width : Nat) (s : String) : String := blanks (width - Text.width s) ++ s

def isGrouped : List Char → Bool
  | [] => true
  | ',' :: a :: b :: c :: rest => a.isDigit && b.isDigit && c.isDigit && isGrouped rest
  | _ => false

def isWhole (cs : List Char) : Bool :=
  let (digits, rest) := cs.span Char.isDigit
  !digits.isEmpty && (rest.isEmpty || (digits.length ≤ 3 && isGrouped rest))

def isPercentage (cs : List Char) : Bool :=
  let (digits, rest) := cs.span Char.isDigit
  let rest := match rest with
    | '.' :: rest => rest.dropWhile Char.isDigit
    | rest => rest
  !digits.isEmpty && rest == ['%']

def isNumber (s : String) : Bool :=
  let trimmed := (s.toList.dropWhile Text.isBlank).reverse.dropWhile Text.isBlank |>.reverse
  let unsigned := match trimmed with
    | '-' :: cs => cs
    | cs => cs
  isPercentage unsigned ||
    match unsigned.span (· != '.') with
    | (whole, '.' :: places) => isWhole whole && !places.isEmpty && places.all Char.isDigit
    | (whole, _) => isWhole whole

def body (width : Nat) (s : String) : String := if isNumber s then atRight width s else atLeft width s

def border (widths : List Nat) : String :=
  "+" ++ String.join (widths.map fun w => String.ofList (List.replicate (w + 2) '-') ++ "+") ++ "\n"

def rowLine (pad : Nat → String → String) (missing : String) (widths : List Nat) (cells : List (List String))
    (i : Nat) : String :=
  "|" ++ String.join ((widths.zip cells).map fun (w, lines) => " " ++ pad w (lines[i]?.getD missing) ++ " |") ++ "\n"

def row (pad : Nat → String → String) (missing : String) (widths : List Nat) (cells : List (List String)) : String :=
  let height := cells.foldl (fun h c => max h c.length) 0
  String.join ((List.range height).map (rowLine pad missing widths cells))

/-- The grid as text. A body cell that is lower than its row is filled up with lines of two blanks. -/
def render (g : Grid) : String :=
  let header := g.header.map (cell g.wrapAt)
  let rows := g.rows.map (·.map (cell g.wrapAt))
  let widths := rows.foldl (fun ws r => List.zipWith (fun w c => max w c.2) ws r) (header.map (·.2))
  border widths ++ row centred "" widths (header.map (·.1)) ++ border widths
    ++ String.join (rows.map fun r => row body "  " widths (r.map (·.1))) ++ border widths

end Grid

end Planwright
