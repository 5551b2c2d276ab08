/-!
# Data types and literals

A variable has one of three types. A literal is told from its spelling alone: digits; digits, a point and digits; or
one of the two truth values. Digits are the ten ASCII digits.

* `DataType.ofName?`: the type that a word names in a declaration.
* `DataType.acceptsLiteral`: whether a word is a literal of a type.
* `DataType.ofLiteral?`: the type of which a word is a literal.
-/

namespace MiniPascal

/-- The type of a variable. -/
inductive DataType where
  | int
  | float
  | bool
  deriving DecidableEq, Inhabited

namespace DataType

/-- The canonical name of a type. -/
def name : DataType → String
  | int => "int"
  | float => "float"
  | bool => "bool"

/-- The type that a word names. -/
def ofName? (word : String) : Option DataType :=
  if word = "int" ∨ word = "integer" then some int
  else if word = "float" ∨ word = "real" then some float
  else if word = "bool" ∨ word = "boolean" then some bool
  else none

/-- One digit or more and nothing else. -/
def isNumeral (cs : List Char) : Bool :=
  !cs.isEmpty && cs.all Char.isDigit

/-- A numeral, a point and a numeral. -/
def isDecimal (cs : List Char) : Bool :=
  match cs.dropWhile Char.isDigit with
  | '.' :: fraction => isNumeral (cs.takeWhile Char.isDigit) && isNumeral fraction
  | _ => false

/-- Whether a word is a literal of a type. -/
def acceptsLiteral : DataType → String → Bool
  | int, word => isNumeral word.toList
  | float, word => isDecimal word.toList
  | bool, word => word = "true" || word = "false"

/-- The first type of which a word is a literal. -/
def ofLiteral? (word : String) : Option DataType :=
  [int, float, bool].find? (·.acceptsLiteral word)

theorem ofName?_name (t : DataType) : ofName? t.name = some t := by
  cases t <;> decide

end DataType

end MiniPascal
