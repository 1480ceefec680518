/-! Options of the optimizer. -/

namespace Planwright

structure Options where
  maxNodeCount : Int
  /-- The number of inner nodes above which a definition used more than twice stays where it is. -/
  maxScalarTreeSize : Int
  ansiNullSemantics : Bool
  verbose : Bool
  disabledRules : List String
  deriving DecidableEq, Inhabited

namespace Options

def standard : Options :=
  { maxNodeCount := 100000, maxScalarTreeSize := 100, ansiNullSemantics := true, verbose := false,
    disabledRules := [] }

def insertName (name : String) : List String → List String
  | [] => [name]
  | other :: rest =>
    if name < other then name :: other :: rest
    else if name = other then other :: rest
    else other :: insertName name rest

def disabledNames (o : Options) : List String := o.disabledRules.foldr insertName []

end Options

end Planwright
