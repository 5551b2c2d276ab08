/-!
# Faults of a JSON text

What can be wrong with a JSON text of which the shape is known, and the blanks that may stand between its tokens.
-/

namespace MiniPascal.Json

/-- The first thing that is wrong with a text, read from left to right. -/
inductive Fault where
  /-- The text ends where more has to follow. -/
  | truncated
  /-- No JSON text goes on like this. -/
  | notJson
  /-- A value begins that has the wrong type for its place, or a key that is not known. -/
  | wrongShape
  deriving DecidableEq

/-- The wording of a fault. -/
def Fault.message : Fault → String
  | truncated => "unexpected end of text"
  | notJson => "not a JSON text"
  | wrongShape => "unexpected value"

/-- The characters that may stand between tokens. -/
def isBlank (c : Char) : Bool :=
  c = ' ' || c = '\t' || c = '\n' || c = '\r'

end MiniPascal.Json
