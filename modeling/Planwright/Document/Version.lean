import Planwright.Text.Scan

/-! Document versions: three numbers with an optional prerelease and build label. -/

namespace Planwright

structure Version where
  major : Nat
  minor : Nat
  patch : Nat
  prerelease : String
  build : String
  deriving DecidableEq, Inhabited

inductive VersionError
  | malformed
  | segmentTooLarge
  deriving DecidableEq, Inhabited

namespace Version

def isLabelChar (c : Char) : Bool := c.isAlphanum || c == '-'

def isLabel (cs : List Char) : Bool :=
  ((String.ofList cs).splitOn ".").all fun part => !part.isEmpty && part.toList.all isLabelChar

def segment (cs : List Char) : List Char × List Char :=
  match cs with
  | '.' :: rest =>
    let (digits, tail) := Text.digits rest
    if digits.isEmpty then ([], cs) else (digits, tail)
  | _ => ([], cs)

def labels? (cs : List Char) : Option (String × String) :=
  let (before, build) := cs.span (· != '+')
  let build? : Option String := match build with
    | [] => some ""
    | _ :: label => if isLabel label then some (String.ofList label) else none
  let prerelease? : Option String := match before with
    | [] => some ""
    | '-' :: label => if isLabel label then some (String.ofList label) else none
    | _ => none
  prerelease?.bind fun p => build?.map fun b => (p, b)

/-- Reads `v?N(.N)?(.N)?(-label)?(+label)?`. -/
def ofText (s : String) : Except VersionError Version :=
  let cs := match s.toList with
    | 'v' :: cs => cs
    | cs => cs
  let (major, cs) := Text.digits cs
  let (minor, cs) := segment cs
  let (patch, cs) := segment cs
  if major.isEmpty then throw .malformed
  else
    match labels? cs with
    | none => throw .malformed
    | some (prerelease, build) =>
      if [major, minor, patch].all fun ds => Text.natOf ds < 1 <<< 63 then
        pure { major := Text.natOf major, minor := Text.natOf minor, patch := Text.natOf patch, prerelease, build }
      else throw .segmentTooLarge

def text (v : Version) : String :=
  toString v.major ++ "." ++ toString v.minor ++ "." ++ toString v.patch
    ++ (if v.prerelease.isEmpty then "" else "-" ++ v.prerelease)
    ++ (if v.build.isEmpty then "" else "+" ++ v.build)

def supported : String := "^1.0"

/-- Releases of the first major version are supported, prereleases are not. -/
def isSupported (v : Version) : Bool := v.prerelease.isEmpty && v.major == 1

end Version

end Planwright
