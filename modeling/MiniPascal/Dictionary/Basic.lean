import MiniPascal.Category

/-!
# Dictionaries

A dictionary lists the words of each category. A word that stands in more than one list belongs to the category that
comes first; a word that stands in none is unclassified.

* `Dictionary.ofEntries`: the dictionary of a table, or the first category that the table lacks.
* `Dictionary.classify`, `Dictionary.words`: from words to categories and back.
-/

namespace MiniPascal

/-- A category with its words. -/
abbrev Entry := Category × List String

/-- The categories with their words, in the order of the table. -/
structure Dictionary where
  entries : List Entry
  deriving DecidableEq

/-- The words under a category; a category that is listed again keeps its place and takes the new words. -/
def putEntry (category : Category) (words : List String) : List Entry → List Entry
  | [] => [(category, words)]
  | e :: rest => if e.1 = category then (category, words) :: rest else e :: putEntry category words rest

/-- The words that a table lists under a category. -/
def wordsIn (entries : List Entry) (category : Category) : Option (List String) :=
  entries.lookup category

namespace Dictionary

/-- The dictionary of a table that lists every category, and otherwise the first category that it lacks. -/
def ofEntries (entries : List Entry) : Except Category Dictionary :=
  match Category.tabled.find? fun c => (wordsIn entries c).isNone with
  | some missing => .error missing
  | none => .ok ⟨entries⟩

/-- The first category that lists a word. -/
def classify (d : Dictionary) (word : String) : Category :=
  (d.entries.find? fun e => e.2.contains word).elim .unclassified (·.1)

/-- The words of a category, none for what no table lists. -/
def words (d : Dictionary) (category : Category) : List String :=
  (wordsIn d.entries category).getD []

end Dictionary

end MiniPascal
