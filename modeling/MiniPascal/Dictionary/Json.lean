import MiniPascal.Dictionary.Basic
import MiniPascal.Json.Misfit

/-!
# Category tables in JSON

A category table is an object whose members are lists of strings, each under the key of a category. It is read one
character at a time, and the first thing that is wrong with it is its fault. A key that comes again keeps its place
and takes the new list.

* `TableState.step`, `TableState.read`: one character is read, and all of them.
* `Dictionary.ofJson`: the dictionary of a text.
-/

namespace MiniPascal

open Json (Fault TextState TextStep)

/-- What may follow in a table. -/
inductive Awaited where
  /-- The opening brace. -/
  | table
  /-- A key or the closing brace. -/
  | firstKey
  /-- A key. -/
  | key
  /-- The rest of a key. -/
  | keyText (text : TextState)
  /-- The colon behind a key. -/
  | colon (category : Category)
  /-- The opening bracket of a list. -/
  | list (category : Category)
  /-- A word or the closing bracket of a list. -/
  | firstWord (category : Category)
  /-- A word, behind others. -/
  | word (category : Category) (words : List String)
  /-- The rest of a word, behind others. -/
  | wordText (category : Category) (words : List String) (text : TextState)
  /-- A comma or the closing bracket of a list. -/
  | wordEnd (category : Category) (words : List String)
  /-- A comma or the closing brace. -/
  | listEnd
  /-- Nothing more. -/
  | nothing
  deriving DecidableEq

/-- A table as far as it has been read. -/
structure TableState where
  entries : List Entry
  awaited : Awaited
  deriving DecidableEq

/-- What a character does to a table. -/
inductive TableStep where
  /-- The table goes on. -/
  | more (state : TableState)
  /-- A value begins here that has the wrong type. -/
  | misfit
  | fault (fault : Fault)
  deriving DecidableEq

namespace TableState

/-- The table before its first character. -/
def initial : TableState := ⟨[], .table⟩

/-- Waits for something else. -/
def await (s : TableState) (awaited : Awaited) : TableStep :=
  .more { s with awaited }

/-- Ends the list of a category. -/
def endList (s : TableState) (category : Category) (words : List String) : TableStep :=
  .more ⟨putEntry category words s.entries, .listEnd⟩

/-- Whether blanks may stand here. -/
def betweenTokens (s : TableState) : Bool :=
  match s.awaited with
  | .keyText _ | .wordText _ _ _ => false
  | _ => true

/-- Reads one character that is no blank between tokens. -/
def stepToken (s : TableState) (c : Char) : TableStep :=
  match s.awaited with
  | .table => if c = '\x7b' then s.await .firstKey else .misfit
  | .firstKey =>
    if c = '"' then s.await (.keyText .empty) else if c = '\x7d' then s.await .nothing else .fault .notJson
  | .key => if c = '"' then s.await (.keyText .empty) else .fault .notJson
  | .keyText text =>
    match text.step c with
    | .more next => s.await (.keyText next)
    | .closed key =>
      match Category.ofKey? key with
      | some category => s.await (.colon category)
      | none => .fault .wrongShape
    | .fault f => .fault f
  | .colon category => if c = ':' then s.await (.list category) else .fault .notJson
  | .list category => if c = '[' then s.await (.firstWord category) else .misfit
  | .firstWord category =>
    if c = '"' then s.await (.wordText category [] .empty)
    else if c = ']' then s.endList category []
    else .misfit
  | .word category words =>
    if c = '"' then s.await (.wordText category words .empty)
    else .misfit
  | .wordText category words text =>
    match text.step c with
    | .more next => s.await (.wordText category words next)
    | .closed word => s.await (.wordEnd category (words ++ [word]))
    | .fault f => .fault f
  | .wordEnd category words =>
    if c = ',' then s.await (.word category words)
    else if c = ']' then s.endList category words
    else .fault .notJson
  | .listEnd => if c = ',' then s.await .key else if c = '\x7d' then s.await .nothing else .fault .notJson
  | .nothing => .fault .notJson

/-- Reads one character. -/
def step (s : TableState) (c : Char) : TableStep :=
  if s.betweenTokens && Json.isBlank c then .more s else s.stepToken c

/-- The members of the table, in the order of the text. -/
def read (s : TableState) : List Char → Except Fault (List Entry)
  | [] => if s.awaited = .nothing then .ok s.entries else .error .truncated
  | c :: rest =>
    match s.step c with
    | .more next => next.read rest
    | .misfit => .error (Json.misfit (c :: rest))
    | .fault f => .error f

end TableState

/-! ## Dictionaries -/

/-- What is wrong with a category table. -/
inductive TableError where
  | malformed (fault : Fault)
  | missingCategory (category : Category)
  deriving DecidableEq

/-- The wording of an error of a table. -/
def TableError.message : TableError → String
  | malformed fault => "malformed category table: " ++ fault.message
  | missingCategory category => "category \"" ++ category.key ++ "\" is missing from the table"

/-- The dictionary of a JSON text. -/
def Dictionary.ofJson (text : String) : Except TableError Dictionary :=
  match TableState.initial.read text.toList with
  | .error fault => .error (.malformed fault)
  | .ok entries => (Dictionary.ofEntries entries).mapError .missingCategory

end MiniPascal
