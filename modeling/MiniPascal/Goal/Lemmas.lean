import MiniPascal.Goal.Reaction

/-!
# What a goal does

What a goal on top of a stack does is told by its kind, so `simp` opens a reaction wherever the kind is known, and leaves
it closed where it is not.

* `Lexeme.namedType?_of_eq`, `Lexeme.resolve?_of_eq`: what a lexeme names, by its category.
* `Goal.onLexeme_programWord` and the lemmas behind it: the reaction of each goal.
-/

namespace MiniPascal

/-! ## What a lexeme names -/

namespace Lexeme

variable {x : Lexeme} {scope : ScopeTable} {type : DataType}

theorem namedType?_eq_some_iff :
    x.namedType? = some type ↔ x.category = .typeWord ∧ DataType.ofName? x.text = some type := by
  rw [namedType?, Option.ite_none_right_eq_some]

theorem resolve?_eq_some_iff : x.resolve? scope = some type ↔ x.category = .unclassified ∧ scope.find? x.text = some type := by
  rw [resolve?, Option.ite_none_right_eq_some]

@[simp]
theorem namedType?_of_eq (h : x.category = .typeWord) : x.namedType? = DataType.ofName? x.text :=
  if_pos h

@[simp]
theorem namedType?_of_ne (h : x.category ≠ .typeWord) : x.namedType? = none :=
  if_neg h

@[simp]
theorem resolve?_of_eq (h : x.category = .unclassified) : x.resolve? scope = scope.find? x.text :=
  if_pos h

@[simp]
theorem resolve?_of_ne (h : x.category ≠ .unclassified) : x.resolve? scope = none :=
  if_neg h

end Lexeme

variable (scope : ScopeTable) (here : Place) (x : Lexeme) (context : Context) (type : DataType)
  (expected : Option DataType) (category : Category) (text : String) (depth : Nat)

namespace Goal

/-! ## At a lexeme -/

@[simp]
theorem onLexeme_programWord : programWord.onLexeme scope here x =
    if x.category = .programWord then .take (scope.openBlock .program ScopeTable.global) [variableLists, beginWord]
    else here.refuse .missingProgram := rfl

@[simp]
theorem onLexeme_variableLists : variableLists.onLexeme scope here x =
    if x.category = .varWord then .take scope [typeName, variableLists] else .pass := rfl

@[simp]
theorem onLexeme_typeName : typeName.onLexeme scope here x =
    match x.namedType? with
    | some type => .take scope [variableName type, moreVariables type]
    | none => here.refuse .unknownDataType := rfl

@[simp]
theorem onLexeme_variableName : (variableName type).onLexeme scope here x = declareName scope here x type := rfl

@[simp]
theorem onLexeme_moreVariables : (moreVariables type).onLexeme scope here x =
    if x.category = .comma then .take scope [variableName type, moreVariables type]
    else if x.category = .semicolon then .take scope []
    else .pass := rfl

@[simp]
theorem onLexeme_beginWord : beginWord.onLexeme scope here x =
    if x.category = .beginWord then .take (scope.openInner .body) [operator .outermost, moreOperators, endWord]
    else here.refuse (.awaitedName "begin") := rfl

@[simp]
theorem onLexeme_operator : (operator context).onLexeme scope here x = beginStatement scope here x context := rfl

@[simp]
theorem onLexeme_moreStatements : (moreStatements context).onLexeme scope here x =
    if scope.inCompound then beginStatement scope here x context else .pass := rfl

@[simp]
theorem onLexeme_room : (room depth).onLexeme scope here x =
    if scope.hasRoom depth then .pass else here.refuse .nestingTooDeep := rfl

@[simp]
theorem onLexeme_moreOperators : moreOperators.onLexeme scope here x =
    match here.loose? with
    | some closing => .refuse ⟨.missingCommentOpening, closing⟩
    | none => if x.category = .semicolon then .take scope [operator .outermost, moreOperators] else .pass := rfl

@[simp]
theorem onLexeme_endWord : endWord.onLexeme scope here x =
    if x.category = .endWord then .take scope.closeBlock [] else here.refuse (.awaitedName "end") := rfl

@[simp]
theorem onLexeme_word : (word category text).onLexeme scope here x =
    if x.is category text then .take scope [] else here.refuse (.awaitedWord text) := rfl

@[simp]
theorem onLexeme_elseBranch : (elseBranch context).onLexeme scope here x =
    if x.is .conditional "else" then .take scope [room context.inner.depth, operator context.inner] else .pass := rfl

@[simp]
theorem onLexeme_target : target.onLexeme scope here x = assignTo scope here x := rfl

@[simp]
theorem onLexeme_value : (value type).onLexeme scope here x =
    if x.category = .becomes then .take scope (expression (some type)) else here.refuse .awaitedAppropriation := rfl

@[simp]
theorem onLexeme_readTarget : readTarget.onLexeme scope here x =
    if (x.resolve? scope).isSome then .take scope [] else here.refuse .undefinedVariable := rfl

@[simp]
theorem onLexeme_moreReadTargets : moreReadTargets.onLexeme scope here x =
    if x.category = .comma then .take scope [readTarget, moreReadTargets] else .pass := rfl

@[simp]
theorem onLexeme_moreWritten : moreWritten.onLexeme scope here x =
    if x.category = .comma then .take scope (comparison ++ [moreWritten]) else .pass := rfl

@[simp]
theorem onLexeme_term : (term expected).onLexeme scope here x =
    if x.category = .unary ∨ x.category = .addition then .take scope [operand expected]
    else takeOperand scope here x expected := rfl

@[simp]
theorem onLexeme_operand : (operand expected).onLexeme scope here x = takeOperand scope here x expected := rfl

@[simp]
theorem onLexeme_moreTerms : (moreTerms expected).onLexeme scope here x =
    if x.category = .addition ∨ x.category = .multiplication then .take scope (expression expected) else .pass := rfl

@[simp]
theorem onLexeme_moreExpressions : moreExpressions.onLexeme scope here x =
    if x.category = .relation ∨ x.category = .logicalOr ∨ x.category = .logicalAnd then .take scope comparison
    else .pass := rfl

end Goal

end MiniPascal
