/-! Files by path, and why one cannot be read. -/

namespace Planwright

inductive FileError
  | missing (path : String)
  | throughFile (path : String)
  /-- The path leads to a folder, which can be opened, but holds no text. -/
  | folder (path : String)
  | other (path problem : String)
  deriving DecidableEq, Inhabited

def FileError.message : FileError → String
  | missing path => "open " ++ path ++ ": no such file or directory"
  | throughFile path => "open " ++ path ++ ": not a directory"
  | folder path => "read " ++ path ++ ": is a directory"
  | other path problem => "open " ++ path ++ ": " ++ problem

abbrev ReadFile := String → Except FileError String

abbrev Folder := List (String × String)

namespace Folder

def read (f : Folder) : ReadFile := fun path =>
  let parts := path.splitOn "/"
  if path == "" || parts.head? == some "" then throw (.missing path)
  else
    match parts.filter fun p => p != "" && p != "." with
    | [] => throw (.folder path)
    | name :: rest =>
      match f.lookup name with
      | none => throw (.missing path)
      | some text =>
        if rest.isEmpty && parts.getLast? == some name then pure text else throw (.throughFile path)

end Folder

end Planwright
