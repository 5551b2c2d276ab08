import MiniPascal.Diagnostic
import MiniPascal.Scope.Basic

/-!
# Goals

What is still awaited at some place of a program is a stack of goals, the next one on top. A lexeme is shown to the
goal on top, which takes it and puts other goals in its own place, is met without it and lets the goal below see it,
or refuses it.

* `Goal`: what can be awaited.
* `Reaction`: what a goal does with a lexeme.
* `expression`, `comparison`: the goals of an expression and of a condition.
-/

namespace MiniPascal

/-- Where an operator stands: inside a branch of a conditional or not, and under how many bodies and branches. -/
structure Context where
  inBranch : Bool
  depth : Nat
  deriving DecidableEq

namespace Context

/-- The place of the operators between the `begin` and the `end` of a program. -/
def outermost : Context := ⟨false, 0⟩

/-- The place of the body of a loop, or of what follows an `else`. -/
def inner (c : Context) : Context := ⟨c.inBranch, c.depth + 1⟩

/-- The place of what follows a `then`. -/
def branch (c : Context) : Context := ⟨true, c.depth + 1⟩

end Context

/-- Something that is awaited. -/
inductive Goal where
  /-- The word that begins a program. -/
  | programWord
  /-- Any number of lists of variables. -/
  | variableLists
  /-- The type of the variables of a list. -/
  | typeName
  /-- The name of a variable of a list. -/
  | variableName (type : DataType)
  /-- More names behind commas, then perhaps a semicolon. -/
  | moreVariables (type : DataType)
  /-- The word that begins the operators. -/
  | beginWord
  /-- An operator. -/
  | operator (context : Context)
  /-- The statements that an operator goes on with while a compound block is open. -/
  | moreStatements (context : Context)
  /-- Room for one statement more. -/
  | room (depth : Nat)
  /-- More operators behind semicolons. -/
  | moreOperators
  /-- The word that ends the operators. -/
  | endWord
  /-- A word of the given category and spelling. -/
  | word (category : Category) (text : String)
  /-- Perhaps an `else` with its operator. -/
  | elseBranch (context : Context)
  /-- The variable that an assignment is made to. -/
  | target
  /-- The sign of an assignment to a variable of the given type, and the value. -/
  | value (type : DataType)
  /-- A variable to be read. -/
  | readTarget
  /-- More variables to be read, behind commas. -/
  | moreReadTargets
  /-- More conditions to be written, behind commas. -/
  | moreWritten
  /-- An operand with or without a sign, of the given type if there is one. -/
  | term (expected : Option DataType)
  /-- An operand without a sign. -/
  | operand (expected : Option DataType)
  /-- More terms, behind operators. -/
  | moreTerms (expected : Option DataType)
  /-- More expressions, behind relations and connectives. -/
  | moreExpressions
  deriving DecidableEq

/-- The goals of an expression all of whose operands have the given type, or any type at all. -/
@[simp]
def expression (expected : Option DataType) : List Goal :=
  [.term expected, .moreTerms expected]

/-- The goals of a condition: expressions of any type with relations and connectives between them. -/
@[simp]
def comparison : List Goal :=
  expression none ++ [.moreExpressions]

/-- A broken rule and the index of the lexeme at which it is found; the end of the input has the last index. -/
structure Halt where
  kind : DiagnosticKind
  index : Nat
  deriving DecidableEq

/-- Where a lexeme is shown: its index, and the index of the lexeme before it if that one closes a comment whose last
mark before is not an opening brace. -/
structure Place where
  index : Nat
  loose? : Option Nat
  deriving DecidableEq

/-- The breach of a rule at this very place. -/
@[simp]
def Place.halt (here : Place) (kind : DiagnosticKind) : Halt :=
  ⟨kind, here.index⟩

/-- What a goal does with a lexeme. -/
inductive Reaction where
  /-- Takes it; the goals stand in place of the one that took it. -/
  | take (scope : ScopeTable) (goals : List Goal)
  /-- Is met without it. -/
  | pass
  /-- Refuses it. -/
  | refuse (halt : Halt)
  deriving DecidableEq

/-- Puts more goals below those that stand in place of one that took a lexeme. -/
def Reaction.before (r : Reaction) (rest : List Goal) : Reaction :=
  match r with
  | .take scope goals => .take scope (goals ++ rest)
  | .pass => .pass
  | .refuse halt => .refuse halt

namespace Reaction

variable {scope : ScopeTable} {goals rest : List Goal} {halt : Halt}

@[simp]
theorem before_take : (take scope goals).before rest = take scope (goals ++ rest) := rfl

@[simp]
theorem before_pass : pass.before rest = pass := rfl

@[simp]
theorem before_refuse : (refuse halt).before rest = refuse halt := rfl

@[simp]
theorem before_nil (r : Reaction) : r.before [] = r := by
  cases r <;> simp

end Reaction

end MiniPascal
