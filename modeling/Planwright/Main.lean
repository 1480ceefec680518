import Planwright.Command.Run

/-! The command line: reads the files that the arguments name, and prints what the run says. -/

namespace Planwright

def readPath (path : String) : IO (Except FileError String) := do
  match ← (IO.FS.readFile path).toBaseIO with
  | .ok text => return .ok text
  | .error (.noFileOrDirectory ..) => return .error (.missing path)
  | .error e => return .error (.other path (toString e))

def numberOfBytes (bytes : ByteArray) : Nat := bytes.toList.foldl (fun n b => n * 256 + b.toNat) 0

def runProgram (args : List String) : IO UInt32 := do
  let drawn ← args.mapM fun _ => return numberOfBytes (← IO.getRandomBytes 16)
  let blank : Setup :=
    { program := (← IO.appPath).fileStem.getD "planwright"
      invocation := ⟨fun i => Naming.standard.name (drawn.getD i 0)⟩
      home := ← IO.getEnv "HOME"
      read := fun path => .error (.missing path) }
  let named := match Request.ofArgs blank.program args with
    | .ok r => r.paths
    | .error _ => []
  let files ← (blank.defaultConfig?.toList ++ named).mapM fun path => return (path, ← readPath path)
  let setup := { blank with read := fun path => (files.lookup path).getD (.error (.missing path)) }
  match setup.runArgs args with
  | .ok out =>
    IO.print out.stdout
    match out.failure with
    | some message =>
      IO.eprintln ("Error: " ++ message)
      return 1
    | none => return 0
  | .error f =>
    IO.eprintln f.message
    return 2

end Planwright

def main (args : List String) : IO UInt32 := Planwright.runProgram args
