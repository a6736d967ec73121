import Ifj22.CommandLine.Run
set_option autoImplicit false

/-!
# CommandLine: runs in memory

A session holds everything that a run can see and change: the files of one directory, the standard
input, and what has been printed.  The directory has no directories in it.
-/

namespace Ifj22.CommandLine

-- bytes are compared as in core
attribute [local instance (high)] ByteArray.instDecidableEq

/-- A file of the directory. -/
structure File where
  name : String
  content : ByteArray
  deriving DecidableEq, Inhabited

/-- What a run can see and change. -/
structure Session where
  files : List File
  stdin : ByteArray
  stdout : String
  stderr : String
  deriving DecidableEq, Inhabited

/-- Why a path leads nowhere. -/
inductive PathFault
  | missing | notDirectory | isDirectory
  deriving DecidableEq, Repr, Inhabited

/-- The reason in words. -/
def PathFault.message : PathFault → String
  | .missing => "No such file or directory (os error 2)"
  | .notDirectory => "Not a directory (os error 20)"
  | .isDirectory => "Is a directory (os error 21)"

namespace Session

/-- The content of a file. -/
def content? (s : Session) (name : String) : Option ByteArray :=
  (s.files.find? (·.name == name)).map (·.content)

/-- The name of the file that a path leads to, whether there is such a file or not.  A dot stands
for the directory itself, and nothing lies outside of it. -/
def resolve (s : Session) (path : String) : Except PathFault String :=
  let steps := path.splitOn "/"
  match steps.filter (· != ".") with
  | [] => .error .isDirectory
  | "" :: _ => .error .missing
  | [name] => .ok name
  | name :: _ => .error (if (s.content? name).isSome then .notDirectory else .missing)

/-- Reads a file. -/
def readFile (path : String) : StateM Session (Except String ByteArray) := do
  let s ← get
  pure <| match s.resolve path with
    | .error e => .error e.message
    | .ok name =>
      match s.content? name with
      | some content => .ok content
      | none => .error PathFault.missing.message

/-- The session with a file written. -/
def put (s : Session) (file : File) : Session :=
  { s with files := s.files.filter (·.name != file.name) ++ [file] }

/-- Writes a file, whether it is there or not. -/
def writeFile (path text : String) : StateM Session (Except String Unit) := do
  match (← get).resolve path with
  | .error e => pure (.error e.message)
  | .ok name =>
    modify (·.put ⟨name, text.toUTF8⟩)
    pure (.ok ())

/-- The host of runs in memory. -/
def host : Host (StateM Session) where
  readStdin := do pure (.ok (← get).stdin)
  readFile := readFile
  writeFile := writeFile
  print text := modify fun s => { s with stdout := s.stdout ++ text }
  printError text := modify fun s => { s with stderr := s.stderr ++ text }

end Session

end Ifj22.CommandLine
