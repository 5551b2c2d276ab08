import MiniPascal.Proofs.Descent.Rule

/-!
# The recursive descent

The grammar of the language as rules that call one another. An operator calls itself through the bodies of loops and
the branches of conditionals only, so a statement gets the rule for the operators inside it, and each operator that is
begun and not ended uses up a frame.

* `skipComments`, `absorbCommentBehind`: comments at the cursor and behind it.
* `keyword`, `expect`, `variableLists`: words and declarations.
* `expression`, `comparison`, `assignment`: the parts of statements.
* `statement`, `operator`: a statement says whether there was one, an operator reads as many as belong to it.
* `report`: the report of the descent on a program, or its fault.
-/

namespace MiniPascal.Descent

/-! ## Comments -/

/-- Skips the comment that the lexeme at the cursor opens, up to the first closing brace. -/
def skipComment : Rule Bool := do
  demand ((← peek).text ≠ closingMark) .missingCommentOpening
  let opening ← cursor
  let behind ← slice (opening + 1) (← size)
  match behind.findIdx? (·.is .comment closingMark) with
  | some offset =>
    moveTo (opening + offset + 2)
    return true
  | none => fail .missingCommentClosing

/-- Skips the comments at the cursor. -/
def skipComments : Rule Unit :=
  loop do if ← peekIn [.comment] then skipComment else return false

/-- Goes to the next lexeme that is not in a comment. -/
def advance : Rule Unit := do
  bump
  skipComments

/-- The index before another one, if the lexeme there closes a comment. -/
def closedAt (lexemes : List Lexeme) : Nat → Option Nat
  | 0 => none
  | behind + 1 => if lexemes[behind]?.any (·.is .comment closingMark) then some behind else none

/-- The index of the lexeme before the cursor, if that one closes a comment. -/
def closedBehind : Rule (Option Nat) :=
  fun lexemes p => .done (closedAt lexemes p.cursor) p

/-- Demands of a comment that ends at the cursor that the nearest mark before its end opens one. -/
def absorbCommentBehind : Rule Unit := do
  match ← closedBehind with
  | none => return ()
  | some behind =>
    let before ← slice 0 behind
    if (before.reverse.find? (·.category = .comment)).any (·.text = openingMark) then return ()
    else failAt behind .missingCommentOpening

/-! ## Words -/

/-- Takes a word of the given category. -/
def keyword (category : Category) (kind : DiagnosticKind) : Rule Unit := do
  demand (← peekIn [category]) kind
  bump

/-- Reads a word of the given category and spelling, with the comments around it. -/
def expect (category : Category) (text : String) : Rule Unit := do
  skipComments
  demand ((← peek).is category text) (.awaitedWord text)
  advance

/-! ## Declarations -/

/-- Reads the type of the variables of a list. -/
def typeName : Rule DataType := do
  match (← peek).namedType? with
  | some type =>
    advance
    return type
  | none => fail .unknownDataType

/-- Reads the name of a variable of a list and declares it. -/
def variableName (type : DataType) : Rule Unit := do
  let x ← peek
  demand (isIdentifier x.text) .badVariableName
  demand (x.category = .unclassified) .reservedVariableName
  match (← scope).current? with
  | none => fail .globalDeclaration
  | some id =>
    declare id x.text type
    advance

/-- Reads any number of lists of variables. -/
def variableLists : Rule Unit :=
  chain [.varWord] do
    skipComments
    let type ← typeName
    variableName type
    chain [.comma] do
      skipComments
      variableName type
    let _ ← once [.semicolon] skipComments

/-! ## Variables and operands -/

/-- The type of the variable at the cursor. -/
def resolve : Rule (Option DataType) := do
  let x ← peek
  if x.category = .unclassified then find x.text else return none

/-- Reads an operand without a sign. -/
def operand (expected : Option DataType) : Rule Unit := do
  let x ← peek
  demand (!(← atEnd) && x.category = .unclassified) (.awaitedWord "variable or value")
  let actual? ← find x.text
  demand (actual?.isSome || (DataType.ofLiteral? x.text).isSome)
    (if isIdentifier x.text then .undefinedVariable else .awaitedWord "variable or value")
  demand (fits expected actual? x.text) .incorrectValueType
  advance

/-- Reads an operand with or without a sign. -/
def term (expected : Option DataType) : Rule Unit := do
  skipComments
  let _ ← once [.unary, .addition] skipComments
  operand expected

/-- Reads operands with operators between them. -/
def expression (expected : Option DataType) : Rule Unit := do
  term expected
  chain [.addition, .multiplication] do
    skipComments
    term expected

/-- Reads expressions with relations and connectives between them. -/
def comparison : Rule Unit := do
  expression none
  chain [.relation, .logicalOr, .logicalAnd] do
    skipComments
    expression none

/-- Reads an assignment. -/
def assignment : Rule Unit := do
  match ← resolve with
  | none => fail .undefinedAssignmentTarget
  | some type =>
    advance
    keyword .becomes .awaitedAppropriation
    skipComments
    expression (some type)

/-- Reads a variable to be read. -/
def readTarget : Rule Unit := do
  demand (← resolve).isSome .undefinedVariable
  advance

/-! ## Statements -/

section Statements

variable (nested : Context → Rule Unit) (context : Context)

/-- A loop on a condition. -/
def whileLoop : Rule Unit := do
  bump
  comparison
  expect .doWord "do"
  nested context.inner

/-- A counting loop. -/
def forLoop : Rule Unit := do
  advance
  assignment
  expect .cycle "to"
  comparison
  expect .doWord "do"
  nested context.inner

/-- The reading of variables. -/
def reading : Rule Unit := do
  bump
  expect .parenthesis "("
  readTarget
  chain [.comma] do
    skipComments
    readTarget
  expect .parenthesis ")"

/-- The writing of values. -/
def writing : Rule Unit := do
  bump
  expect .parenthesis "("
  comparison
  chain [.comma] do
    skipComments
    comparison
  expect .parenthesis ")"

/-- A conditional. -/
def conditional : Rule Unit := do
  bump
  comparison
  expect .conditional "then"
  nested context.branch
  skipComments
  if (← peek).is .conditional "else" then
    bump
    nested context.inner
  else return ()

/-- The end of a block where a statement may begin. -/
def noStatement : Rule Bool := do
  demand (!(← inCompound)) (.awaitedName "]")
  return false

/-- A statement that begins with a given lexeme. -/
def statementFrom (x : Lexeme) : Rule Bool :=
  match x.category with
  | .endWord => noStatement
  | .compoundOpen => do
    bump
    openInner (.compound 0)
    return true
  | .compoundClose => do
    demand (← inCompound) .unexpectedCompoundEnd
    bump
    closeBlock
    skipComments
    return true
  | .whileWord => do
    whileLoop nested context
    return true
  | .cycle => do
    demand (x.text = "for") .unexpectedWord
    forLoop nested context
    return true
  | .readWord => do
    reading
    return true
  | .writeWord => do
    writing
    return true
  | .unclassified => do
    assignment
    return true
  | .conditional =>
    if x.text = "if" then do
      conditional nested context
      return true
    else if context.inBranch && x.text = "else" then return false
    else fail .unexpectedConditional
  | _ => fail .unexpectedWord

/-- Reads a statement and says whether there was one. -/
def statement : Rule Bool := do
  demand (context.depth + (← compoundDepth) ≤ maxNesting) .nestingTooDeep
  skipComments
  variableLists
  if ← atEnd then noStatement else statementFrom nested context (← peek)

end Statements

/-- A rule that says whether it has read anything, with a check that it has. -/
def progress (rule : Rule Bool) : Rule Bool := do
  let before ← cursor
  let reads ← rule
  if reads && (← cursor) ≤ before then fault .idle else return reads

/-- Reads an operator: a statement, and more of them as long as the current block is a compound one. So many operators
may be begun and not ended. -/
def operator : Nat → Context → Rule Unit
  | 0, _ => fault .overflow
  | frames + 1, context => do
    if ← progress (statement (operator frames) context) then
      loop do if ← inCompound then progress (statement (operator frames) context) else return false

/-! ## Programs -/

/-- The word that begins a program, and its block. -/
def header : Rule Unit := do
  keyword .programWord .missingProgram
  openBlock .program ScopeTable.global
  skipComments

/-- An operator of the program, and the comment behind it. -/
def outermost (frames : Nat) : Rule Unit := do
  operator frames .outermost
  absorbCommentBehind

/-- The operators of a program behind the word that begins them. -/
def body (frames : Nat) : Rule Unit := do
  skipComments
  keyword .beginWord (.awaitedName "begin")
  openInner .body
  outermost frames
  chain [.semicolon] (outermost frames)

/-- The word that ends the operators, and the end of the program behind it. -/
def ending : Rule Unit := do
  skipComments
  keyword .endWord (.awaitedName "end")
  closeBlock
  skipComments
  demand (← atEnd) .trailingAfterEnd

/-- A program. So many operators may be begun and not ended. -/
def program (frames : Nat) : Rule Unit := do
  skipComments
  header
  variableLists
  body frames
  ending

/-- The report of the descent on a program. -/
def report (frames : Nat) (lexemes : List Lexeme) : Except Fault Report :=
  match program frames lexemes ⟨0, .empty⟩ with
  | .done _ p => .ok ⟨none, p.scope⟩
  | .halt halt scope => .ok ⟨some (halt.diagnostic lexemes), scope⟩
  | .fault fault => .error fault

end MiniPascal.Descent
