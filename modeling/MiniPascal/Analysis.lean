import MiniPascal.Goal.Reaction
import MiniPascal.Lexeme.Tokenize

/-!
# The analysis of a program

The lexemes of a program are read once, from left to right. A comment runs from an opening mark to the first closing
brace and is skipped; every other lexeme is shown to the goals on the stack. The first lexeme that is refused halts
the analysis, so a report holds one diagnostic at most.

* `offer`, `complaint`: a stack of goals is shown a lexeme, or the end of the input (`offer_append`,
  `complaint_append`: the topmost goals decide).
* `State.step`, `State.run`: one lexeme is read, and all of them.
* `analyze`, `check`: the report on a list of lexemes, and on a text.
-/

namespace MiniPascal

/-! ## A stack of goals -/

/-- What a stack of goals does with a lexeme: the topmost goal that does not let it pass decides. -/
@[simp]
def offer (scope : ScopeTable) (here : Place) (x : Lexeme) : List Goal → Reaction
  | [] => .pass
  | goal :: rest =>
    match goal.onLexeme scope here x with
    | .take scope goals => .take scope (goals ++ rest)
    | .pass => offer scope here x rest
    | .refuse halt => .refuse halt

/-- What a stack of goals complains about at the end of the input. -/
def complaint (scope : ScopeTable) (here : Place) (goals : List Goal) : Option Halt :=
  goals.findSome? (·.onEnd scope here)

@[simp]
theorem complaint_cons (scope : ScopeTable) (here : Place) (goal : Goal) (rest : List Goal) :
    complaint scope here (goal :: rest) = (goal.onEnd scope here).or (complaint scope here rest) := by
  rw [complaint, List.findSome?_cons]
  cases goal.onEnd scope here <;> rfl

/-- A lexeme that the goals on top let pass is shown to those below. -/
theorem offer_append (scope : ScopeTable) (here : Place) (x : Lexeme) (top rest : List Goal) :
    offer scope here x (top ++ rest) =
      match offer scope here x top with
      | .take scope goals => .take scope (goals ++ rest)
      | .pass => offer scope here x rest
      | .refuse halt => .refuse halt := by
  induction top with
  | nil => rfl
  | cons goal top ih =>
    rw [List.cons_append, offer, offer]
    cases goal.onLexeme scope here x with
    | take scope goals => simp
    | pass => exact ih
    | refuse halt => rfl

/-- The goals on top complain first. -/
theorem complaint_append (scope : ScopeTable) (here : Place) (top rest : List Goal) :
    complaint scope here (top ++ rest) = (complaint scope here top).or (complaint scope here rest) := by
  simp [complaint, List.findSome?_append]

/-! ## Comments -/

/-- Whether the lexeme read last stands in a comment. -/
inductive Margin where
  /-- Outside; if the lexeme read last closes a comment whose last mark before is no opening brace, its index. -/
  | outside (loose? : Option Nat)
  /-- In the comment that the lexeme of the given index opens, with the spelling of the last mark in it. -/
  | inside (opening : Nat) (mark : String)
  deriving DecidableEq

/-- The mark that opens a comment in the built-in dictionary. -/
def openingMark : String := "\x7b"

/-- The one mark that closes a comment. -/
def closingMark : String := "\x7d"

/-- Reads the lexeme of the given index inside a comment. -/
def readInside (opening : Nat) (mark : String) (index : Nat) (x : Lexeme) : Margin :=
  if x.category ≠ .comment then .inside opening mark
  else if x.text = closingMark then .outside (if mark = openingMark then none else some index)
  else .inside opening x.text

/-! ## States -/

/-- What is known about a program after some of its lexemes. -/
structure State where
  /-- What is awaited. -/
  goals : List Goal
  /-- The blocks so far. -/
  scope : ScopeTable
  /-- The number of lexemes read. -/
  read : Nat
  /-- Whether a comment is open. -/
  margin : Margin
  deriving DecidableEq

namespace State

/-- The state before the first lexeme. -/
def initial : State where
  goals := [.programWord]
  scope := .empty
  read := 0
  margin := .outside none

/-- Whether the goal on top asks for room that there is not; it refuses even a comment. -/
def isFull (s : State) : Bool :=
  match s.goals with
  | .room depth :: _ => !s.scope.hasRoom depth
  | _ => false

/-- Reads a lexeme outside a comment that opens a comment or closes none. -/
def stepComment (s : State) (x : Lexeme) : Except Halt State :=
  if s.isFull then .error ⟨.nestingTooDeep, s.read⟩
  else if x.text = closingMark then .error ⟨.missingCommentOpening, s.read⟩
  else .ok { s with read := s.read + 1, margin := .inside s.read x.text }

/-- Shows a lexeme outside a comment to the goals. Where every goal is met, the program has ended. -/
def stepGoals (s : State) (loose? : Option Nat) (x : Lexeme) : Except Halt State :=
  match offer s.scope ⟨s.read, loose?⟩ x s.goals with
  | .take scope goals => .ok ⟨goals, scope, s.read + 1, .outside none⟩
  | .pass => .error ⟨.trailingAfterEnd, s.read⟩
  | .refuse halt => .error halt

/-- Reads one lexeme. -/
def step (s : State) (x : Lexeme) : Except Halt State :=
  match s.margin with
  | .inside opening mark => .ok { s with read := s.read + 1, margin := readInside opening mark s.read x }
  | .outside loose? => if x.category = .comment then s.stepComment x else s.stepGoals loose? x

/-- Reaches the end of the input. -/
def finish (s : State) : Option Halt :=
  match s.margin with
  | .inside opening _ => some ⟨.missingCommentClosing, opening⟩
  | .outside loose? => complaint s.scope ⟨s.read, loose?⟩ s.goals

/-- Reads lexemes to the end of the input or to the first breach, and keeps the blocks as they are then. -/
def run (s : State) : List Lexeme → Option Halt × ScopeTable
  | [] => (s.finish, s.scope)
  | x :: rest =>
    match s.step x with
    | .error halt => (some halt, s.scope)
    | .ok next => next.run rest

end State

/-! ## Reports -/

/-- The lexeme of an index in a program; behind the last one comes the end of the input. -/
def lexemeAt (program : List Lexeme) (index : Nat) : Lexeme :=
  program[index]?.getD (.endOfInput program.getLast?)

/-- The diagnostic of a breach in a program. -/
def Halt.diagnostic (h : Halt) (program : List Lexeme) : Diagnostic :=
  ⟨h.kind, lexemeAt program h.index⟩

/-- What an analysis finds: the broken rule, if any, and the blocks of the program as far as it was read. -/
structure Report where
  diagnostic? : Option Diagnostic
  scope : ScopeTable
  deriving DecidableEq

/-- The report on a list of lexemes. -/
def analyze (program : List Lexeme) : Report :=
  let (halt?, scope) := State.initial.run program
  ⟨halt?.map (·.diagnostic program), scope⟩

/-- The report on a text. -/
def check (d : Dictionary) (source : String) : Report :=
  analyze (tokenize d source)

end MiniPascal
