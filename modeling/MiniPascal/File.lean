/-!
# Files

A directory holds files under relative paths; the directories on the way to a file are there too. A path is followed
one component at a time: an empty component and a single dot stay where they are, two dots go back, and all three
need a directory. What lies outside the directory is not known, so nothing is found there.

* `Directory.read`: the contents of the file at a path.
* `readText`: the same as text.
-/

namespace MiniPascal

/-- Why a file cannot be read. -/
inductive ReadFault where
  | missing
  | notDirectory
  | isDirectory
  | notText
  | other (reason : String)
  deriving DecidableEq

/-- The wording of a fault, with the system's number of it. -/
def ReadFault.message : ReadFault → String
  | missing => "No such file or directory (os error 2)"
  | notDirectory => "Not a directory (os error 20)"
  | isDirectory => "Is a directory (os error 21)"
  | notText => "stream did not contain valid UTF-8"
  | other reason => reason

/-- The components of a path. -/
def components (path : String) : List String :=
  path.splitOn "/"

/-- Files by the components of their paths. -/
structure Directory where
  files : List (List String × ByteArray)

/-- What a path leads to. -/
inductive Spot where
  | file (contents : ByteArray)
  | directory (path : List String)
  | outside

namespace Directory

/-- The directory that holds the given files. -/
def ofFiles (files : List (String × ByteArray)) : Directory :=
  ⟨files.map fun f => ((components f.1).filter fun c => c ≠ "" ∧ c ≠ ".", f.2)⟩

/-- What stands at a path below the directory. -/
def spot? (d : Directory) (path : List String) : Option Spot :=
  match d.files.lookup path with
  | some contents => some (.file contents)
  | none => if d.files.any fun f => path.isPrefixOf f.1 then some (.directory path) else none

/-- Follows one component. -/
def follow (d : Directory) (component : String) : Spot → Except ReadFault Spot
  | .file _ => .error .notDirectory
  | .directory path =>
    if component = "" ∨ component = "." then .ok (.directory path)
    else if component = ".." then .ok (if path.isEmpty then .outside else .directory path.dropLast)
    else
      match d.spot? (path ++ [component]) with
      | some spot => .ok spot
      | none => .error .missing
  | .outside => if component ∈ ["", ".", ".."] then .ok .outside else .error .missing

/-- Where a path begins: one with a leading slash begins outside. -/
def start (path : String) : Spot :=
  if path.startsWith "/" then .outside else .directory []

/-- The contents of the file at a path. -/
def read (d : Directory) (path : String) : Except ReadFault ByteArray :=
  if path.isEmpty then .error .missing
  else
    match (components path).foldlM (fun spot component => d.follow component spot) (start path) with
    | .error fault => .error fault
    | .ok (.file contents) => .ok contents
    | .ok _ => .error .isDirectory

end Directory

/-- The text that bytes hold. -/
def readText (bytes : ByteArray) : Except ReadFault String :=
  match String.fromUTF8? bytes with
  | some text => .ok text
  | none => .error .notText

/-- A way to read the text of a file. -/
abbrev Reader := String → Except ReadFault String

/-- Reads the texts of a directory. -/
def Directory.reader (d : Directory) : Reader :=
  fun path => (d.read path).bind readText

end MiniPascal
