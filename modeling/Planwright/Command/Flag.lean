import Planwright.Text.Integer
import Planwright.Text.Quoted

/-! Flags: named arguments of a command, in long form (`--name value`, `--name=value`) or as a letter. -/

namespace Planwright

inductive FlagKind
  | text | number | switch
  deriving DecidableEq, Inhabited

structure Flag where
  name : String
  letter : Option Char
  kind : FlagKind
  usage : String
  deriving DecidableEq, Inhabited

inductive FlagValue
  | text (s : String)
  | number (n : Int)
  | switch (on : Bool)
  deriving DecidableEq, Inhabited

inductive FlagError
  | malformed (argument : String)
  | unknown (name : String)
  /-- No flag has this letter; the letters that were still to be read. -/
  | unknownLetter (letter : Char) (letters : String)
  | valueMissing (argument : String)
  | letterValueMissing (letter : Char) (letters : String)
  | notNumber (flag : Flag) (value : String) (problem : Text.IntegerProblem)
  | notSwitch (flag : Flag) (value : String)
  deriving DecidableEq, Inhabited

def Flag.title (f : Flag) : String :=
  match f.letter with
  | some c => "-" ++ c.toString ++ ", --" ++ f.name
  | none => "--" ++ f.name

namespace FlagError

/-- A letter in quotes. Beyond ASCII only the first byte of a letter counts. -/
def quotedLetter (c : Char) : String :=
  let first := c.toString.toUTF8.toList.head?.elim c fun b => Char.ofNat b.toNat
  let inner :=
    if first == '\'' then "\\'"
    else if first == '"' then "\""
    else Text.escapeChar first
  "'" ++ inner ++ "'"

def valueMessage (f : Flag) (value problem : String) : String :=
  "invalid argument " ++ Text.quote value ++ " for " ++ Text.quote f.title ++ " flag: " ++ problem

def message : FlagError → String
  | malformed argument => "bad flag syntax: " ++ argument
  | unknown name => "unknown flag: --" ++ name
  | unknownLetter c letters => "unknown shorthand flag: " ++ quotedLetter c ++ " in -" ++ letters
  | valueMissing argument => "flag needs an argument: " ++ argument
  | letterValueMissing c letters => "flag needs an argument: " ++ quotedLetter c ++ " in -" ++ letters
  | notNumber f value problem =>
    valueMessage f value ("strconv.ParseInt: parsing " ++ Text.quote value ++ ": " ++ problem.message)
  | notSwitch f value => valueMessage f value ("strconv.ParseBool: parsing " ++ Text.quote value ++ ": invalid syntax")

end FlagError

def switch? (s : String) : Option Bool :=
  if ["1", "t", "T", "TRUE", "true", "True"].contains s then some true
  else if ["0", "f", "F", "FALSE", "false", "False"].contains s then some false
  else none

namespace Flag

def read (f : Flag) (s : String) : Except FlagError FlagValue :=
  match f.kind with
  | .text => pure (.text s)
  | .number =>
    match Text.readInteger s with
    | .ok n => pure (.number n)
    | .error problem => throw (.notNumber f s problem)
  | .switch =>
    match switch? s with
    | some b => pure (.switch b)
    | none => throw (.notSwitch f s)

abbrev Reading := (String × FlagValue) × Bool

def reading (f : Flag) (s : String) (usedNext : Bool) : Except FlagError Reading :=
  return ((f.name, ← f.read s), usedNext)

/-- Reads a flag in long form; its value may be the next argument. -/
def readLong (flags : List Flag) (argument : String) (next? : Option String) : Except FlagError Reading :=
  let body := argument.toList.drop 2
  if body.isEmpty || body.head? == some '-' || body.head? == some '=' then throw (.malformed argument)
  else
    let (name, rest) := body.span (· != '=')
    let name := String.ofList name
    match flags.find? (·.name == name) with
    | none => throw (.unknown name)
    | some f =>
      match rest, f.kind, next? with
      | _ :: value, _, _ => f.reading (String.ofList value) false
      | [], .switch, _ => f.reading "true" false
      | [], _, some value => f.reading value true
      | [], _, none => throw (.valueMissing argument)

/-- Reads flags given as letters. A letter whose flag takes a value ends them. -/
def readLetters (flags : List Flag) (next? : Option String) : List Char → Except FlagError (List Reading)
  | [] => pure []
  | c :: rest =>
    if (c :: rest).take 5 == "test.".toList then pure []
    else
      match flags.find? (·.letter == some c) with
      | none => throw (.unknownLetter c (String.ofList (c :: rest)))
      | some f =>
        match rest, f.kind, next? with
        | '=' :: v :: value, _, _ => return [← f.reading (String.ofList (v :: value)) false]
        | rest, .switch, _ => return (← f.reading "true" false) :: (← readLetters flags next? rest)
        | v :: value, _, _ => return [← f.reading (String.ofList (v :: value)) false]
        | [], _, some value => return [← f.reading value true]
        | [], _, none => throw (.letterValueMissing c (String.ofList [c]))

def readArgument (flags : List Flag) (argument : String) (next? : Option String) : Except FlagError (List Reading) :=
  match argument.toList with
  | '-' :: '-' :: _ => return [← readLong flags argument next?]
  | cs => readLetters flags next? (cs.drop 1)

end Flag

/-- Arguments taken apart: the values of flags, the last given first, and the other words. -/
structure Arguments where
  values : List (String × FlagValue)
  words : List String
  deriving DecidableEq, Inhabited

namespace Arguments

def isWord (s : String) : Bool := s.toList.head? != some '-' || s == "-"

/-- Takes arguments apart. Flags may stand between words; behind `--` there are only words. -/
def parseFrom (flags : List Flag) (a : Arguments) : List String → Except FlagError Arguments
  | [] => pure a
  | s :: rest =>
    if isWord s then parseFrom flags { a with words := a.words ++ [s] } rest
    else if s == "--" then pure { a with words := a.words ++ rest }
    else do
      let readings ← Flag.readArgument flags s rest.head?
      let a := { a with values := (readings.map (·.1)).reverse ++ a.values }
      parseFrom flags a (rest.drop (if readings.any (·.2) then 1 else 0))
termination_by args => args.length
decreasing_by all_goals simp_wf; try omega

def parse (flags : List Flag) (args : List String) : Except FlagError Arguments := parseFrom flags ⟨[], []⟩ args

def text (a : Arguments) (name : String) : String :=
  match a.values.lookup name with
  | some (.text s) => s
  | _ => ""

def number (a : Arguments) (name : String) : Int :=
  match a.values.lookup name with
  | some (.number n) => n
  | _ => 0

def switch (a : Arguments) (name : String) : Bool :=
  match a.values.lookup name with
  | some (.switch b) => b
  | _ => false

/-- Whether an argument looks like a flag whose value is the next argument. Flags that are not known are taken
    to have a value. -/
def takesNext (flags : List Flag) (s : String) : Bool :=
  let isSwitch (f : Flag) : Bool := f.kind == .switch
  let cs := s.toList
  !cs.contains '=' &&
    (match cs with
     | '-' :: '-' :: name => !(flags.any fun f => f.name == String.ofList name && isSwitch f)
     | ['-', c] => c.toNat < 128 && !(flags.any fun f => f.letter == some c && isSwitch f)
     | _ => false)

/-- The words among arguments that are not taken apart yet, for finding the command they name. -/
def commandWords (flags : List Flag) : List String → List String
  | [] => []
  | s :: rest =>
    if s == "--" then []
    else if takesNext flags s then
      match rest with
      | [] | [_] => []
      | _ :: rest => commandWords flags rest
    else if s != "" && s.toList.head? != some '-' then s :: commandWords flags rest
    else commandWords flags rest

end Arguments

end Planwright
