import MiniPascal.Analysis

/-!
# Rules of a recursive descent

A rule reads a program with a cursor and a scope table of its own. It ends somewhere, halts the analysis at a breach, or
is at fault: what a machine would not survive, or would not survive for long, is checked wherever it could happen.

* `Fault`: what is checked.
* `Rule`: a rule, `Rule.bind_apply` how one follows another.
* `moveTo`, `slice`, `block`: the only ways to the cursor, to parts of the program and to the blocks.
* `rounds`, `loop`, `chain`: loops that may not go round more often than there are lexemes, and once more.
-/

namespace MiniPascal.Descent

/-- What a rule must not do. -/
inductive Fault where
  /-- The cursor moves back, or behind the end of the program. -/
  | cursor
  /-- A part of the program is taken that reaches outside it. -/
  | slice
  /-- A block is asked for that the scope table does not hold. -/
  | block
  /-- A loop goes round too often. -/
  | endless
  /-- A statement is read, and the cursor does not move. -/
  | idle
  /-- More operators are begun and not ended than are allowed. -/
  | overflow
  deriving DecidableEq

/-- Where the descent is: at a lexeme, or at the end, with the blocks so far. -/
structure Spot where
  cursor : Nat
  scope : ScopeTable
  deriving DecidableEq

/-- What becomes of a rule. -/
inductive Outcome (α : Type) where
  /-- It ends at a spot. -/
  | done (value : α) (spot : Spot)
  /-- It halts the analysis. -/
  | halt (halt : Halt) (scope : ScopeTable)
  /-- It is at fault. -/
  | fault (fault : Fault)
  deriving DecidableEq

/-- A rule reads a program from a spot on. -/
def Rule (α : Type) : Type :=
  List Lexeme → Spot → Outcome α

variable {α β : Type}

instance : Monad Rule where
  pure a := fun _ p => .done a p
  bind rule next := fun program p =>
    match rule program p with
    | .done a q => next a program q
    | .halt halt scope => .halt halt scope
    | .fault fault => .fault fault

namespace Rule

@[simp]
theorem pure_apply (a : α) (program : List Lexeme) (p : Spot) : (pure a : Rule α) program p = .done a p := rfl

@[simp]
theorem bind_apply (rule : Rule α) (next : α → Rule β) (program : List Lexeme) (p : Spot) :
    (rule >>= next) program p =
      match rule program p with
      | .done a q => next a program q
      | .halt halt scope => .halt halt scope
      | .fault fault => .fault fault := rfl

end Rule

/-! ## The program -/

/-- The place of the cursor. -/
def cursor : Rule Nat :=
  fun _ p => .done p.cursor p

@[simp]
theorem cursor_apply (program : List Lexeme) (p : Spot) : cursor program p = .done p.cursor p := rfl

/-- The number of lexemes. -/
def size : Rule Nat :=
  fun program p => .done program.length p

/-- The lexeme at the cursor, or the end of the input. -/
def peek : Rule Lexeme :=
  fun program p => .done (lexemeAt program p.cursor) p

/-- Whether the cursor is at the end. -/
def atEnd : Rule Bool :=
  do return (← size) ≤ (← cursor)

/-- Whether there is a lexeme of one of some categories at the cursor. -/
def peekIn (categories : List Category) : Rule Bool :=
  do return !(← atEnd) && (← peek).category ∈ categories

/-- A rule that is at fault. -/
def fault (fault : Fault) : Rule α :=
  fun _ _ => .fault fault

/-- Halts at the lexeme of an index. -/
def failAt (index : Nat) (kind : DiagnosticKind) : Rule α :=
  fun _ p => .halt ⟨kind, index⟩ p.scope

/-- Halts at the cursor. -/
def fail (kind : DiagnosticKind) : Rule α :=
  do failAt (← cursor) kind

/-- Halts at the cursor unless something holds. -/
def demand (holds : Bool) (kind : DiagnosticKind) : Rule Unit :=
  if holds then pure () else fail kind

@[simp]
theorem demand_apply (holds : Bool) (kind : DiagnosticKind) (program : List Lexeme) (p : Spot) :
    demand holds kind program p = if holds then .done () p else .halt ⟨kind, p.cursor⟩ p.scope := by
  cases holds <;> rfl

/-- Moves the cursor. -/
def moveTo (index : Nat) : Rule Unit :=
  fun program p =>
    if p.cursor ≤ index ∧ index ≤ program.length then .done () { p with cursor := index } else .fault .cursor

/-- Moves the cursor to the next lexeme; at the end it stays. -/
def bump : Rule Unit :=
  do moveTo (min ((← cursor) + 1) (← size))

/-- The part of the program from one index up to another. -/
def slice (start stop : Nat) : Rule (List Lexeme) :=
  fun program p =>
    if start ≤ stop ∧ stop ≤ program.length then .done (program.extract start stop) p else .fault .slice

/-! ## The blocks -/

/-- The scope table. -/
def scope : Rule ScopeTable :=
  fun _ p => .done p.scope p

@[simp]
theorem scope_apply (program : List Lexeme) (p : Spot) : scope program p = .done p.scope p := rfl

/-- Replaces the scope table. -/
def setScope (scope : ScopeTable) : Rule Unit :=
  fun _ p => .done () { p with scope }

@[simp]
theorem setScope_apply (table : ScopeTable) (program : List Lexeme) (p : Spot) :
    setScope table program p = .done () ⟨p.cursor, table⟩ := rfl

/-- The block of an index. -/
def block (id : Nat) : Rule Block :=
  fun _ p => p.scope.blocks[id]?.elim (.fault .block) (.done · p)

/-- A block and the blocks around it, so many of them at most. -/
def blocksFrom : Nat → Nat → Rule (List Block)
  | 0, _ => fault .endless
  | laps + 1, id => do
    let b ← block id
    match b.parent? with
    | none => return [b]
    | some around => return b :: (← blocksFrom laps around)

/-- The blocks around the cursor, the innermost first. -/
def openBlocks : Rule (List Block) := do
  let table ← scope
  match table.current? with
  | none => return []
  | some id => blocksFrom table.blocks.size id

/-- The type of a name at the cursor. -/
def find (name : String) : Rule (Option DataType) :=
  do return (← openBlocks).findSome? (·.lookup? name)

/-- The number of compound blocks around the cursor. -/
def compoundDepth : Rule Nat :=
  do return (← openBlocks).countP (·.kind.isCompound)

/-- Whether the current block is a compound one. -/
def inCompound : Rule Bool := do
  match (← scope).current? with
  | none => return false
  | some id => return (← block id).kind.isCompound

/-- Opens a block inside another one. -/
def openBlock (kind : BlockKind) (around : Nat) : Rule Unit := do
  let _ ← block around
  setScope ((← scope).openBlock kind around)

/-- Opens a block inside the current one. -/
def openInner (kind : BlockKind) : Rule Unit :=
  do openBlock kind ((← scope).current?.getD ScopeTable.global)

/-- Leaves the current block. -/
def closeBlock : Rule Unit := do
  let table ← scope
  match table.current? with
  | none => return ()
  | some id => setScope { table with current? := (← block id).parent?.filter (· ≠ ScopeTable.global) }

/-- Declares a variable in a block that has none of that name. -/
def declare (id : Nat) (name : String) (type : DataType) : Rule Unit := do
  demand ((← block id).lookup? name).isNone .alreadyDeclared
  let table ← scope
  setScope { table with blocks := table.blocks.modify id (·.add name type) }

/-! ## Loops -/

/-- Repeats a rule as long as it says so, but less often than the given number. -/
def rounds (round : Rule Bool) : Nat → Rule Unit
  | 0 => fault .endless
  | laps + 1 => do if ← round then rounds round laps

/-- Repeats a rule as long as it says so; it may say so once for each lexeme. -/
def loop (round : Rule Bool) : Rule Unit :=
  do rounds round ((← size) + 1)

/-- Takes a lexeme of one of some categories, if there is one, and goes on with a rule. -/
def once (categories : List Category) (next : Rule Unit) : Rule Bool := do
  if ← peekIn categories then
    bump
    next
    return true
  else return false

/-- Takes lexemes of some categories and goes on with a rule behind each. -/
def chain (categories : List Category) (next : Rule Unit) : Rule Unit :=
  loop (once categories next)

end MiniPascal.Descent
