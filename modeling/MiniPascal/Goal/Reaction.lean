import MiniPascal.Goal.Basic
import MiniPascal.Identifier

/-!
# Reactions of goals

The grammar of the language, one goal at a time: what a goal does when it is shown a lexeme, and what it says at the
end of the input. Comments never reach a goal.

* `Goal.onLexeme`: the reaction to a lexeme.
* `Goal.onEnd`: the complaint at the end of the input, if the goal has one.
-/

namespace MiniPascal

/-- Bodies, branches and open compound blocks around a statement may be this many together. -/
def maxNesting : Nat := 48

/-- Whether there is room for a statement under so many bodies and branches. -/
def ScopeTable.hasRoom (scope : ScopeTable) (depth : Nat) : Bool :=
  depth + scope.openCompounds ≤ maxNesting

/-- Refuses a lexeme for what it is. -/
@[simp]
def Place.refuse (here : Place) (kind : DiagnosticKind) : Reaction :=
  .refuse (here.halt kind)

/-! ## Declarations -/

/-- The type that a lexeme names in a list of variables. -/
def Lexeme.namedType? (x : Lexeme) : Option DataType :=
  if x.category = .typeWord then DataType.ofName? x.text else none

/-- Declares a variable in the current block. -/
def declareName (scope : ScopeTable) (here : Place) (x : Lexeme) (type : DataType) : Reaction :=
  if !isIdentifier x.text then here.refuse .badVariableName
  else if x.category ≠ .unclassified then here.refuse .reservedVariableName
  else
    match scope.current? with
    | none => here.refuse .globalDeclaration
    | some block =>
      match scope.declare block x.text type with
      | .error _ => here.refuse .alreadyDeclared
      | .ok declared => .take declared []

/-! ## Variables and operands -/

/-- The type of the variable that a lexeme names at the current place. -/
def Lexeme.resolve? (x : Lexeme) (scope : ScopeTable) : Option DataType :=
  if x.category = .unclassified then scope.find? x.text else none

/-- Takes the variable that an assignment is made to and awaits a value of its type. -/
def assignTo (scope : ScopeTable) (here : Place) (x : Lexeme) : Reaction :=
  match x.resolve? scope with
  | some type => .take scope [.value type]
  | none => here.refuse .undefinedAssignmentTarget

/-- Whether an operand may stand where the given type is expected: a variable has to be of that type, and a literal
has to be one of that type. -/
def fits (expected : Option DataType) (actual? : Option DataType) (text : String) : Bool :=
  match expected, actual? with
  | none, _ => true
  | some type, some actual => type = actual
  | some type, none => type.acceptsLiteral text

/-- Takes a variable or a literal that fits. -/
def takeOperand (scope : ScopeTable) (here : Place) (x : Lexeme) (expected : Option DataType) : Reaction :=
  if x.category ≠ .unclassified then here.refuse (.awaitedWord "variable or value")
  else if (scope.find? x.text).isSome || (DataType.ofLiteral? x.text).isSome then
    if fits expected (scope.find? x.text) x.text then .take scope [] else here.refuse .incorrectValueType
  else if isIdentifier x.text then here.refuse .undefinedVariable
  else here.refuse (.awaitedWord "variable or value")

/-! ## Statements -/

/-- The goals behind the word that begins a loop on a condition. -/
@[simp]
def whileGoals (context : Context) : List Goal :=
  comparison ++ [.word .doWord "do", .operator context.inner]

/-- The goals behind the word that begins a counting loop. -/
@[simp]
def forGoals (context : Context) : List Goal :=
  [.target, .word .cycle "to"] ++ comparison ++ [.word .doWord "do", .operator context.inner]

/-- The goals behind the word that begins a conditional. -/
@[simp]
def ifGoals (context : Context) : List Goal :=
  comparison ++ [.word .conditional "then", .operator context.branch, .elseBranch context]

/-- The goals behind the word that begins the reading of variables. -/
@[simp]
def readGoals : List Goal :=
  [.word .parenthesis "(", .readTarget, .moreReadTargets, .word .parenthesis ")"]

/-- The goals behind the word that begins the writing of values. -/
@[simp]
def writeGoals : List Goal :=
  [.word .parenthesis "("] ++ comparison ++ [.moreWritten, .word .parenthesis ")"]

/-- Begins a statement with a lexeme. The goals of the statement come before the further statements of the operator;
an operator without a statement lets the lexeme pass. -/
def beginStatement (scope : ScopeTable) (here : Place) (x : Lexeme) (context : Context) : Reaction :=
  if !scope.hasRoom context.depth then here.refuse .nestingTooDeep
  else
    match x.category with
    | .varWord => .take scope [.typeName, .operator context]
    | .endWord => if scope.inCompound then here.refuse (.awaitedName "]") else .pass
    | .compoundOpen => .take (scope.openInner (.compound 0)) [.room context.depth, .moreStatements context]
    | .compoundClose =>
      if scope.inCompound then .take scope.closeBlock [.moreStatements context]
      else here.refuse .unexpectedCompoundEnd
    | .whileWord => .take scope (whileGoals context ++ [.moreStatements context])
    | .cycle =>
      if x.text = "for" then .take scope (forGoals context ++ [.moreStatements context])
      else here.refuse .unexpectedWord
    | .readWord => .take scope (readGoals ++ [.moreStatements context])
    | .writeWord => .take scope (writeGoals ++ [.moreStatements context])
    | .unclassified => (assignTo scope here x).before [.moreStatements context]
    | .conditional =>
      if x.text = "if" then .take scope (ifGoals context ++ [.moreStatements context])
      else if context.inBranch && x.text = "else" then .pass
      else here.refuse .unexpectedConditional
    | _ => here.refuse .unexpectedWord

/-! ## All goals -/

/-- What a goal does when it is shown a lexeme. -/
def Goal.onLexeme (scope : ScopeTable) (here : Place) (x : Lexeme) : Goal → Reaction
  | .programWord =>
    if x.category = .programWord then .take (scope.openBlock .program ScopeTable.global) [.variableLists, .beginWord]
    else here.refuse .missingProgram
  | .variableLists => if x.category = .varWord then .take scope [.typeName, .variableLists] else .pass
  | .typeName =>
    match x.namedType? with
    | some type => .take scope [.variableName type, .moreVariables type]
    | none => here.refuse .unknownDataType
  | .variableName type => declareName scope here x type
  | .moreVariables type =>
    if x.category = .comma then .take scope [.variableName type, .moreVariables type]
    else if x.category = .semicolon then .take scope []
    else .pass
  | .beginWord =>
    if x.category = .beginWord then
      .take (scope.openInner .body) [.operator .outermost, .moreOperators, .endWord]
    else here.refuse (.awaitedName "begin")
  | .operator context => beginStatement scope here x context
  | .moreStatements context => if scope.inCompound then beginStatement scope here x context else .pass
  | .room depth => if scope.hasRoom depth then .pass else here.refuse .nestingTooDeep
  | .moreOperators =>
    match here.loose? with
    | some closing => .refuse ⟨.missingCommentOpening, closing⟩
    | none =>
      if x.category = .semicolon then .take scope [.operator .outermost, .moreOperators] else .pass
  | .endWord =>
    if x.category = .endWord then .take scope.closeBlock [] else here.refuse (.awaitedName "end")
  | .word category text => if x.is category text then .take scope [] else here.refuse (.awaitedWord text)
  | .elseBranch context =>
    if x.is .conditional "else" then .take scope [.room context.inner.depth, .operator context.inner] else .pass
  | .target => assignTo scope here x
  | .value type =>
    if x.category = .becomes then .take scope (expression (some type)) else here.refuse .awaitedAppropriation
  | .readTarget => if (x.resolve? scope).isSome then .take scope [] else here.refuse .undefinedVariable
  | .moreReadTargets => if x.category = .comma then .take scope [.readTarget, .moreReadTargets] else .pass
  | .moreWritten => if x.category = .comma then .take scope (comparison ++ [.moreWritten]) else .pass
  | .term expected =>
    if x.category = .unary ∨ x.category = .addition then .take scope [.operand expected]
    else takeOperand scope here x expected
  | .operand expected => takeOperand scope here x expected
  | .moreTerms expected =>
    if x.category = .addition ∨ x.category = .multiplication then .take scope (expression expected) else .pass
  | .moreExpressions =>
    if x.category = .relation ∨ x.category = .logicalOr ∨ x.category = .logicalAnd then .take scope comparison
    else .pass

/-- What an operator complains about when the input ends before a statement. -/
def endStatement (scope : ScopeTable) (here : Place) (context : Context) : Option Halt :=
  if !scope.hasRoom context.depth then some (here.halt .nestingTooDeep)
  else if scope.inCompound then some (here.halt (.awaitedName "]"))
  else none

/-- What a goal complains about at the end of the input. -/
def Goal.onEnd (scope : ScopeTable) (here : Place) : Goal → Option Halt
  | .programWord => some (here.halt .missingProgram)
  | .typeName => some (here.halt .unknownDataType)
  | .variableName _ => some (here.halt .badVariableName)
  | .beginWord => some (here.halt (.awaitedName "begin"))
  | .operator context => endStatement scope here context
  | .moreStatements context => if scope.inCompound then endStatement scope here context else none
  | .room depth => if scope.hasRoom depth then none else some (here.halt .nestingTooDeep)
  | .moreOperators => here.loose?.map fun closing => ⟨.missingCommentOpening, closing⟩
  | .endWord => some (here.halt (.awaitedName "end"))
  | .word _ text => some (here.halt (.awaitedWord text))
  | .target => some (here.halt .undefinedAssignmentTarget)
  | .value _ => some (here.halt .awaitedAppropriation)
  | .readTarget => some (here.halt .undefinedVariable)
  | .term _ | .operand _ => some (here.halt (.awaitedWord "variable or value"))
  | .variableLists | .moreVariables _ | .elseBranch _ | .moreReadTargets | .moreWritten | .moreTerms _
  | .moreExpressions => none

end MiniPascal
