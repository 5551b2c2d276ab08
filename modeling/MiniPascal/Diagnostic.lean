import MiniPascal.Lexeme

/-!
# Diagnostics

A diagnostic says which rule a program breaks and at which lexeme. The kinds fall into four classes: lexical
(comments), declarative (the header and the declarations), referential (names and their types) and syntactic (the
order of words).

* `DiagnosticKind.message`, `DiagnosticKind.diagnosticClass`: the wording and the class of a kind.
* `Diagnostic.render`: the written form of a diagnostic.
-/

namespace MiniPascal

/-- The class of a broken rule. -/
inductive DiagnosticClass where
  | lexical
  | declarative
  | referential
  | syntactic
  deriving DecidableEq

/-- The rule that a program breaks. -/
inductive DiagnosticKind where
  | missingCommentOpening
  | missingCommentClosing
  | missingProgram
  | unknownDataType
  | badVariableName
  | reservedVariableName
  | globalDeclaration
  | alreadyDeclared
  | undefinedAssignmentTarget
  | undefinedVariable
  | incorrectValueType
  | awaitedName (word : String)
  | awaitedWord (word : String)
  | awaitedAppropriation
  | unexpectedCompoundEnd
  | unexpectedConditional
  | unexpectedWord
  | trailingAfterEnd
  | nestingTooDeep
  deriving DecidableEq

namespace DiagnosticKind

/-- The wording of a kind. -/
def message : DiagnosticKind → String
  | missingCommentOpening => "Missing comments opening"
  | missingCommentClosing => "Missing comments closing"
  | missingProgram => "Missing program initialization"
  | unknownDataType => "Unknown data type"
  | badVariableName => "Missing variable name or name is incorrect"
  | reservedVariableName => "Variable declared by system"
  | globalDeclaration => "Variables declaration on global state"
  | alreadyDeclared => "Already declared at state block"
  | undefinedAssignmentTarget => "Underfined variable intitilization"
  | undefinedVariable => "Variable not defined"
  | incorrectValueType => "Incorrect value type"
  | awaitedName word => "Unexpected name, awaited: " ++ word
  | awaitedWord word => "Unexpected word, awaited: " ++ word
  | awaitedAppropriation => "Unexpected, awaited appropriation: as"
  | unexpectedCompoundEnd => "Unexpected compound end"
  | unexpectedConditional => "Unexpected conditional statement"
  | unexpectedWord => "Unexpected word"
  | trailingAfterEnd => "Unexpected expressions, after program end"
  | nestingTooDeep => "Nesting is too deep"

/-- The class of a kind. -/
def diagnosticClass : DiagnosticKind → DiagnosticClass
  | missingCommentOpening | missingCommentClosing => .lexical
  | missingProgram | unknownDataType | badVariableName | reservedVariableName | globalDeclaration
  | alreadyDeclared => .declarative
  | undefinedAssignmentTarget | undefinedVariable | incorrectValueType => .referential
  | awaitedName _ | awaitedWord _ | awaitedAppropriation | unexpectedCompoundEnd | unexpectedConditional
  | unexpectedWord | trailingAfterEnd | nestingTooDeep => .syntactic

end DiagnosticKind

/-- A broken rule and the lexeme at which it is found. -/
structure Diagnostic where
  kind : DiagnosticKind
  lexeme : Lexeme
  deriving DecidableEq

/-! ## Written forms -/

/-- The written form of a place. -/
def Position.render (p : Position) : String :=
  s!"(row:{p.row}, col:{p.col})"

/-- The written form of a lexeme; its text stands in it as it is. -/
def Lexeme.render (x : Lexeme) : String :=
  "\"" ++ x.text ++ "\" of type <" ++ x.category.key ++ ">"

/-- The written form of a diagnostic: two lines, the second one indented by a tab. -/
def Diagnostic.render (d : Diagnostic) : String :=
  "Error: " ++ d.kind.message ++ ", At: " ++ d.lexeme.position.render ++ "\n\tWhile reading " ++ d.lexeme.render

end MiniPascal
