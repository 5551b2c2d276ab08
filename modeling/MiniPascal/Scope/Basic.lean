import MiniPascal.DataType

/-!
# The scope table

The blocks of a program form a tree under the global block. The table keeps every block in the order in which it was
opened, closed ones too, and names a block by its place in that order. Each block lists the variables declared in it;
a name is looked for in a block and then in the blocks around it.

* `ScopeTable.openBlock`, `ScopeTable.closeBlock`, `ScopeTable.declare`: the operations.
* `ScopeTable.path`: a block and the blocks around it, the innermost first.
* `ScopeTable.resolve?`, `ScopeTable.compoundDepth`: what can be read off the path.
-/

namespace MiniPascal

/-- What opened a block. Compound blocks are numbered from one in the order in which they were opened. -/
inductive BlockKind where
  | global
  | program
  | body
  | compound (number : Nat)
  deriving DecidableEq, Inhabited

namespace BlockKind

/-- The written form of a block kind. -/
def render : BlockKind → String
  | global => "global"
  | program => "program"
  | body => "begin"
  | compound number => s!"compound#{number}"

/-- Whether a block was opened by a bracket. -/
def isCompound : BlockKind → Bool
  | compound _ => true
  | _ => false

@[simp]
theorem isCompound_compound (number : Nat) : (compound number).isCompound = true := rfl

@[simp]
theorem isCompound_global : global.isCompound = false := rfl

@[simp]
theorem isCompound_program : program.isCompound = false := rfl

@[simp]
theorem isCompound_body : body.isCompound = false := rfl

end BlockKind

/-- A block with the block around it and its variables in the order of declaration. -/
structure Block where
  kind : BlockKind
  parent? : Option Nat
  declared : List (String × DataType)
  deriving DecidableEq

namespace Block

/-- The type that a block itself gives to a name. -/
def lookup? (b : Block) (name : String) : Option DataType :=
  b.declared.lookup name

/-- The block with one more variable behind the others. -/
def add (b : Block) (name : String) (type : DataType) : Block :=
  { b with declared := b.declared ++ [(name, type)] }

end Block

/-- A block already has a variable of that name. -/
structure AlreadyDeclared where
  name : String
  block : BlockKind
  deriving DecidableEq

/-- The written form of the error. -/
def AlreadyDeclared.message (e : AlreadyDeclared) : String :=
  "`" ++ e.name ++ "` is already declared in block " ++ e.block.render

/-- The blocks of a program and the innermost open one; none is open at the global level. -/
structure ScopeTable where
  blocks : Array Block
  current? : Option Nat
  compounds : Nat
  deriving DecidableEq

namespace ScopeTable

/-- The place of the global block. -/
def global : Nat := 0

/-- The table that holds the global block alone. -/
def empty : ScopeTable where
  blocks := #[⟨.global, none, []⟩]
  current? := none
  compounds := 0

/-! ## Opening, closing and declaring -/

/-- Opens a block inside `parent`. A compound block gets the next number, whatever number `kind` carries. -/
def openBlock (t : ScopeTable) (kind : BlockKind) (parent : Nat) : ScopeTable :=
  let compounds := if kind.isCompound then t.compounds + 1 else t.compounds
  let kind := if kind.isCompound then .compound compounds else kind
  { blocks := t.blocks.push ⟨kind, some parent, []⟩, current? := some t.blocks.size, compounds }

/-- The block around a block. -/
def parent? (t : ScopeTable) (id : Nat) : Option Nat :=
  t.blocks[id]?.bind (·.parent?)

/-- Leaves the current block, which stays in the table; leaving a block of the global one leads to the global level. -/
def closeBlock (t : ScopeTable) : ScopeTable :=
  { t with current? := (t.current?.bind t.parent?).filter (· ≠ global) }

/-- The type that the block itself gives to a name. -/
def lookup? (t : ScopeTable) (id : Nat) (name : String) : Option DataType :=
  t.blocks[id]?.bind (·.lookup? name)

/-- The kind of a block; a place that holds none counts as global. -/
def kindOf (t : ScopeTable) (id : Nat) : BlockKind :=
  t.blocks[id]?.elim .global (·.kind)

/-- Adds a variable behind those of a block, unless the block itself already has one of that name. -/
def declare (t : ScopeTable) (id : Nat) (name : String) (type : DataType) : Except AlreadyDeclared ScopeTable :=
  if (t.lookup? id name).isSome then .error ⟨name, t.kindOf id⟩
  else .ok { t with blocks := t.blocks.modify id (·.add name type) }

/-! ## Questions about a block -/

/-- A block and the blocks around it, the innermost first. -/
def path (t : ScopeTable) (id : Nat) : List Nat :=
  match t.parent? id with
  | some p => if p < id then id :: t.path p else [id]
  | none => [id]
termination_by id

/-- The type of a name as seen from a block: what the nearest block around it says that has the name. -/
def resolve? (t : ScopeTable) (id : Nat) (name : String) : Option DataType :=
  (t.path id).findSome? fun b => t.lookup? b name

/-- The number of compound blocks among a block and the blocks around it. -/
def compoundDepth (t : ScopeTable) (id : Nat) : Nat :=
  (t.path id).countP fun b => (t.kindOf b).isCompound

/-! ## The current block -/

/-- The kind of the current block. -/
def currentKind (t : ScopeTable) : BlockKind :=
  t.current?.elim .global t.kindOf

/-- Whether the innermost open block is a compound one. -/
def inCompound (t : ScopeTable) : Bool :=
  t.currentKind.isCompound

/-- The number of compound blocks around the current place. -/
def openCompounds (t : ScopeTable) : Nat :=
  t.current?.elim 0 t.compoundDepth

/-- The type of a name at the current place. -/
def find? (t : ScopeTable) (name : String) : Option DataType :=
  t.current?.bind (t.resolve? · name)

/-- Opens a block inside the current one. -/
def openInner (t : ScopeTable) (kind : BlockKind) : ScopeTable :=
  t.openBlock kind (t.current?.getD global)

end ScopeTable

end MiniPascal
