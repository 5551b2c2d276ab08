import Mathlib.Tactic.Simps.Basic
import MiniPascal.DataType
import MiniPascal.Lexeme

/-!
# Syntax trees

The grammar of the language as trees, and the words that a tree is written with. Keywords and brackets have their
canonical spelling; a tree names the spelling where only the category of a word counts (operators, relations, signs,
the sign of an assignment).

* `Expression`, `Condition`, `VariableList`, `Assignment`: the parts of operators.
* `Operator`, `Program`: operators with the lists of variables before them, and whole programs.
* `Operator.words`, `Program.words`: the words of a tree.
-/

namespace MiniPascal

/-- A word of a program, without its place. -/
structure Word where
  category : Category
  text : String
  deriving DecidableEq

/-- The word of a lexeme. -/
def Lexeme.word (x : Lexeme) : Word := ⟨x.category, x.text⟩

/-! ## Expressions and conditions -/

/-- A sign before an operand. -/
inductive Sign where
  | unary (text : String)
  | addition (text : String)
  deriving DecidableEq

/-- What joins two terms. -/
inductive Joint where
  | addition (text : String)
  | multiplication (text : String)
  deriving DecidableEq

/-- What connects two expressions of a condition. -/
inductive Connective where
  | relation (text : String)
  | logicalOr (text : String)
  | logicalAnd (text : String)
  deriving DecidableEq

/-- A variable or a literal. -/
inductive Operand where
  | named (name : String)
  | literal (text : String)
  deriving DecidableEq

/-- An operand with or without a sign. -/
structure Term where
  sign? : Option Sign
  operand : Operand
  deriving DecidableEq

/-- Terms with joints between them. -/
structure Expression where
  first : Term
  more : List (Joint × Term)
  deriving DecidableEq

/-- Expressions with connectives between them. -/
structure Condition where
  first : Expression
  more : List (Connective × Expression)
  deriving DecidableEq

def Sign.word : Sign → Word
  | unary text => ⟨.unary, text⟩
  | addition text => ⟨.addition, text⟩

def Joint.word : Joint → Word
  | addition text => ⟨.addition, text⟩
  | multiplication text => ⟨.multiplication, text⟩

def Connective.word : Connective → Word
  | relation text => ⟨.relation, text⟩
  | logicalOr text => ⟨.logicalOr, text⟩
  | logicalAnd text => ⟨.logicalAnd, text⟩

def Operand.word : Operand → Word
  | named name => ⟨.unclassified, name⟩
  | literal text => ⟨.unclassified, text⟩

def Term.words (t : Term) : List Word :=
  (t.sign?.map (·.word)).toList ++ [t.operand.word]

def Expression.words (e : Expression) : List Word :=
  e.first.words ++ e.more.flatMap fun m => m.1.word :: m.2.words

def Condition.words (c : Condition) : List Word :=
  c.first.words ++ c.more.flatMap fun m => m.1.word :: m.2.words

/-! ## Operators and programs -/

/-- Variables of one type, with or without a semicolon behind them. -/
structure VariableList where
  type : DataType
  first : String
  more : List String
  semicolon : Bool
  deriving DecidableEq

/-- A target, the spelling of the sign of an assignment, and a value. -/
structure Assignment where
  target : String
  becomes : String
  value : Expression
  deriving DecidableEq

/-- A statement with the lists of variables before it. -/
inductive Operator where
  | declaring (list : VariableList) (operator : Operator)
  | assign (assignment : Assignment)
  | read (first : String) (more : List String)
  | write (first : Condition) (more : List Condition)
  | whileDo (condition : Condition) (body : Operator)
  | forDo (start : Assignment) (limit : Condition) (body : Operator)
  | ifThen (condition : Condition) (branch : Operator)
  | ifElse (condition : Condition) (branch alternative : Operator)
  /-- Operators between brackets, without separators, and perhaps lists of variables behind them. -/
  | block (operators : List Operator) (lists : List VariableList)

/-- The last operator of a program, which may be empty. -/
inductive Ending where
  | operator (operator : Operator)
  | empty (lists : List VariableList)

/-- Lists of variables, operators with a semicolon behind each, and the last operator. -/
structure Program where
  lists : List VariableList
  operators : List Operator
  ending : Ending

@[simps]
def nameWord (name : String) : Word := ⟨.unclassified, name⟩

@[simps]
def commaWord : Word := ⟨.comma, ","⟩

@[simps]
def semicolonWord : Word := ⟨.semicolon, ";"⟩

@[simps]
def elseWord : Word := ⟨.conditional, "else"⟩

@[simps]
def endWord : Word := ⟨.endWord, "end"⟩

def VariableList.words (l : VariableList) : List Word :=
  ⟨.varWord, "var"⟩ :: ⟨.typeWord, l.type.name⟩ :: nameWord l.first ::
    (l.more.flatMap fun name => [commaWord, nameWord name]) ++ if l.semicolon then [semicolonWord] else []

def Assignment.words (a : Assignment) : List Word :=
  nameWord a.target :: ⟨.becomes, a.becomes⟩ :: a.value.words

mutual

/-- The words of an operator. -/
def Operator.words : Operator → List Word
  | .declaring list operator => list.words ++ operator.words
  | .assign assignment => assignment.words
  | .read first more =>
    ⟨.readWord, "read"⟩ :: ⟨.parenthesis, "("⟩ :: nameWord first ::
      (more.flatMap fun name => [commaWord, nameWord name]) ++ [⟨.parenthesis, ")"⟩]
  | .write first more =>
    ⟨.writeWord, "write"⟩ :: ⟨.parenthesis, "("⟩ :: first.words ++
      (more.flatMap fun c => commaWord :: c.words) ++ [⟨.parenthesis, ")"⟩]
  | .whileDo condition body => ⟨.whileWord, "while"⟩ :: condition.words ++ ⟨.doWord, "do"⟩ :: body.words
  | .forDo start limit body =>
    ⟨.cycle, "for"⟩ :: start.words ++ ⟨.cycle, "to"⟩ :: limit.words ++ ⟨.doWord, "do"⟩ :: body.words
  | .ifThen condition branch =>
    ⟨.conditional, "if"⟩ :: condition.words ++ ⟨.conditional, "then"⟩ :: branch.words
  | .ifElse condition branch alternative =>
    ⟨.conditional, "if"⟩ :: condition.words ++ ⟨.conditional, "then"⟩ :: branch.words ++
      ⟨.conditional, "else"⟩ :: alternative.words
  | .block operators lists =>
    ⟨.compoundOpen, "["⟩ :: Operator.wordsOfAll operators ++ lists.flatMap (·.words) ++ [⟨.compoundClose, "]"⟩]

/-- The words of operators that stand one behind the other. -/
def Operator.wordsOfAll : List Operator → List Word
  | [] => []
  | operator :: rest => operator.words ++ Operator.wordsOfAll rest

end

def Ending.words : Ending → List Word
  | operator o => o.words
  | empty lists => lists.flatMap (·.words)

/-- The words of a program. -/
def Program.words (p : Program) : List Word :=
  ⟨.programWord, "program"⟩ :: p.lists.flatMap (·.words) ++ ⟨.beginWord, "begin"⟩ ::
    (p.operators.flatMap fun o => o.words ++ [semicolonWord]) ++ p.ending.words ++ [⟨.endWord, "end"⟩]

end MiniPascal
