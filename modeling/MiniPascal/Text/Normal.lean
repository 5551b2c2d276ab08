import MiniPascal.Text.Blank

/-!
# Normal text

Normal text keeps its words apart by single spaces: operators and line breaks stand alone, every other blank is a
space, and no two spaces are adjacent. Two characters that form an operator stay together, and a colon that does not
is part of a word. A carriage return and a line feed, in either order, are one break.

* `normalize`: the normal form of a text, `spread` with its spaces run together by `squeeze`.
* `words`: the words of a normal text, a line break being one of them.
-/

namespace MiniPascal

/-- The characters that are a lexeme of their own. -/
def isSign (c : Char) : Bool :=
  c ∈ [',', ';', '[', ']', '\x7b', '\x7d', '(', ')', '+', '-', '*', '/', '<', '>', '=']

/-- The operators of two characters. -/
def isSignPair (c d : Char) : Bool :=
  (c, d) ∈ [('>', '='), ('<', '='), ('<', '>'), (':', '=')]

/-- Two different characters that are one line break. -/
def isBreakPair (c d : Char) : Bool :=
  (c = '\r' && d = '\n') || (c = '\n' && d = '\r')

/-- A line break as a word of its own. -/
def spacedBreak : List Char := [' ', '\n', ' ']

/-- A character that forms no pair with the one behind it, set apart from its neighbours if need be. -/
def spreadOne (c : Char) : List Char :=
  if isBreak c then spacedBreak
  else if isSign c then [' ', c, ' ']
  else if isBlank c then [' ']
  else [c]

/-- Sets operators and line breaks apart and turns every other blank into a space. -/
def spread : List Char → List Char
  | [] => []
  | [c] => spreadOne c
  | c :: d :: rest =>
    if isBreakPair c d then spacedBreak ++ spread rest
    else if isSignPair c d then [' ', c, d, ' '] ++ spread rest
    else spreadOne c ++ spread (d :: rest)

/-- Leaves one space of each run of spaces. -/
def squeeze : List Char → List Char
  | ' ' :: ' ' :: rest => squeeze (' ' :: rest)
  | c :: rest => c :: squeeze rest
  | [] => []

/-- The normal form of a text. -/
def normalize (source : String) : String :=
  String.ofList (squeeze (spread source.toList))

/-- What stands between the spaces of a text, nothing left out but the empty pieces. -/
def words (cs : List Char) : List (List Char) :=
  (cs.splitOn ' ').filter (· ≠ [])

end MiniPascal
