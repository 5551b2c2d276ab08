import MiniPascal.Analysis
import MiniPascal.Dictionary.Builtin
import MiniPascal.Dictionary.Json
import MiniPascal.File
import MiniPascal.Text.Padding

/-!
# The command line

Three commands read a dictionary, the built-in one if none is named, and then perhaps a program: the program is
checked, or its lexemes are listed, or the categories of the dictionary are.

* `Command.ofArguments?`: the command that the arguments ask for.
* `Command.run`: its outcome, given a way to read files.
-/

namespace MiniPascal

/-- What the command line asks for. -/
inductive Command where
  | check (program : String) (dictionary? : Option String)
  | tokens (program : String) (dictionary? : Option String)
  | categories (dictionary? : Option String)
  | version
  deriving DecidableEq

/-- The exit code of a command and what it writes to the two output streams. -/
structure Outcome where
  code : Nat
  output : String
  errors : String
  deriving DecidableEq

/-! ## Arguments -/

/-- The arguments behind the name of a command. -/
structure Arguments where
  files : List String
  dictionary? : Option String
  noColor : Bool
  deriving DecidableEq

namespace Arguments

/-- No arguments. -/
def empty : Arguments := ⟨[], none, false⟩

/-- Adds the name of a dictionary; there is one at most. -/
def addDictionary? (a : Arguments) (path : String) : Option Arguments :=
  if a.dictionary?.isSome then none else some { a with dictionary? := some path }

/-- Adds the arguments of a list. Options may stand before the names of files and behind them. -/
def read? (a : Arguments) : List String → Option Arguments
  | [] => some a
  | "--no-color" :: rest => if a.noColor then none else read? { a with noColor := true } rest
  | "-d" :: path :: rest => (a.addDictionary? path).bind (read? · rest)
  | "--dictionary" :: path :: rest => (a.addDictionary? path).bind (read? · rest)
  | argument :: rest =>
    if argument.startsWith "--dictionary=" then
      (a.addDictionary? (argument.drop "--dictionary=".length).toString).bind (read? · rest)
    else if argument.startsWith "-" ∧ argument ≠ "-" then none
    else read? { a with files := a.files ++ [argument] } rest

end Arguments

/-- The command that the arguments ask for, if they ask for one. -/
def Command.ofArguments? : List String → Option Command
  | ["--version"] => some .version
  | ["-V"] => some .version
  | name :: rest =>
    match Arguments.empty.read? rest with
    | none => none
    | some a =>
      match name, a.files with
      | "check", [program] => some (.check program a.dictionary?)
      | "tokens", [program] => if a.noColor then none else some (.tokens program a.dictionary?)
      | "categories", [] => if a.noColor then none else some (.categories a.dictionary?)
      | _, _ => none
  | [] => none

/-! ## Loading -/

/-- Why a command cannot do its work. -/
inductive LoadError where
  | unreadable (path : String) (fault : ReadFault)
  | table (error : TableError)
  deriving DecidableEq

/-- The wording of an error. -/
def LoadError.message : LoadError → String
  | unreadable path fault => "IO error: " ++ path ++ ": " ++ fault.message
  | table error => "Dictionary error: " ++ error.message

/-- The text of the file at a path. -/
def loadText (read : Reader) (path : String) : Except LoadError String :=
  (read path).mapError (.unreadable path)

/-- The dictionary in the file at a path. -/
def Dictionary.load (read : Reader) (path : String) : Except LoadError Dictionary :=
  match loadText read path with
  | .error e => .error e
  | .ok text => (Dictionary.ofJson text).mapError .table

/-- The dictionary in the file at a path, or the built-in one. -/
def Dictionary.loadOrBuiltin (read : Reader) : Option String → Except LoadError Dictionary
  | some path => Dictionary.load read path
  | none => .ok .builtin

/-! ## Output -/

/-- The line that lists a lexeme. -/
def Lexeme.listing (x : Lexeme) : String :=
  alignRight 4 (toString x.position.row) ++ ":" ++ alignLeft 4 (toString x.position.col) ++ " "
    ++ alignLeft 18 x.category.key ++ " " ++ x.text ++ "\n"

/-- The lines that list lexemes. -/
def listLexemes (xs : List Lexeme) : String :=
  String.join (xs.map Lexeme.listing)

/-- The line that lists a category. -/
def Entry.listing (e : Entry) : String :=
  "  " ++ alignLeft 18 e.1.key ++ " - " ++ " ".intercalate e.2 ++ "\n"

/-- The lines that list the categories of a dictionary. -/
def Dictionary.listing (d : Dictionary) : String :=
  String.join (d.entries.map Entry.listing)

/-- The outcome of a check: the diagnostic, or the news that there is none. -/
def Report.outcome (r : Report) : Outcome :=
  match r.diagnostic? with
  | none => ⟨0, " Success run \n", ""⟩
  | some d => ⟨1, d.render ++ "\n", ""⟩

/-- The outcome of a command that cannot do its work. -/
def LoadError.outcome (e : LoadError) : Outcome :=
  ⟨2, "", "Error: " ++ e.message ++ "\n"⟩

/-! ## Commands -/

namespace Command

/-- What the name and the version of the program are. -/
def versionLine : String := "pascheck 0.1.0\n"

/-- The files that a command reads, the dictionary first. -/
def paths : Command → List String
  | check program dictionary? => dictionary?.toList ++ [program]
  | tokens program dictionary? => dictionary?.toList ++ [program]
  | categories dictionary? => dictionary?.toList
  | version => []

/-- What a command does once its files are read. -/
def result (read : Reader) : Command → Except LoadError Outcome
  | check program dictionary? => do
    let dictionary ← Dictionary.loadOrBuiltin read dictionary?
    let source ← loadText read program
    return (MiniPascal.check dictionary source).outcome
  | tokens program dictionary? => do
    let dictionary ← Dictionary.loadOrBuiltin read dictionary?
    let source ← loadText read program
    return ⟨0, listLexemes (tokenize dictionary source), ""⟩
  | categories dictionary? => do
    let dictionary ← Dictionary.loadOrBuiltin read dictionary?
    return ⟨0, dictionary.listing, ""⟩
  | version => return ⟨0, versionLine, ""⟩

/-- The outcome of a command. -/
def run (read : Reader) (command : Command) : Outcome :=
  match command.result read with
  | .ok outcome => outcome
  | .error e => e.outcome

end Command

end MiniPascal
