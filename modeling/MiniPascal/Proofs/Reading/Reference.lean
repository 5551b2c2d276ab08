import MiniPascal.DataType
import MiniPascal.Proofs.Analysis.Words

/-!
# Names and blocks of a program

What the names of a program stand for can be told from its words alone, one word after the other. The word before tells
what a name is (`Phase`, `roleAt?`), and the words that open and close blocks tell where it is declared (`blocksAt`).

* `Role`: a name is declared, assigned to, read, or an operand.
* `blocksAt`: the declarations of the blocks that are open before a lexeme.
* `Finds`: the declaration that a name means at a lexeme.
* `Agrees`: the name is declared there, and an operand of an assignment has the type of the target.
-/

namespace MiniPascal

/-! ## Phases -/

/-- What the words before a place await there. -/
inductive Phase where
  /-- A statement, or what stands around statements. -/
  | resting
  /-- The type of a list of variables. -/
  | typeDue
  /-- A name of a list of variables. -/
  | nameDue (type : DataType)
  /-- What goes on behind a name of a list of variables. -/
  | named (type : DataType)
  /-- The sign of an assignment to the variable of the given index. -/
  | assigning (target : Nat)
  /-- The names in the parentheses behind a `read`. -/
  | reading
  /-- An operand; in an assignment the index of its target is known. -/
  | operandDue (target? : Option Nat)
  /-- What goes on behind an operand. -/
  | operandBehind (target? : Option Nat)
  deriving DecidableEq

/-- What a name is. -/
inductive Role where
  | declared (type : DataType)
  | target
  | readTarget
  | operand (target? : Option Nat)
  deriving DecidableEq

namespace Phase

/-- The phase behind a word that goes on with nothing before it. -/
def start (index : Nat) (x : Lexeme) : Phase :=
  match x.category with
  | .varWord => typeDue
  | .readWord => reading
  | .writeWord | .whileWord => operandDue none
  | .conditional => if x.text = "if" then operandDue none else resting
  | .cycle => if x.text = "to" then operandDue none else resting
  | .unclassified => assigning index
  | _ => resting

/-- The phase behind a word. -/
def next (index : Nat) (x : Lexeme) : Phase → Phase
  | resting => start index x
  | typeDue => if x.category = .typeWord then (DataType.ofName? x.text).elim resting nameDue else resting
  | nameDue type => named type
  | named type => if x.category = .comma then nameDue type else start index x
  | assigning target => operandDue (some target)
  | reading => if x.is .parenthesis ")" then resting else reading
  | operandDue target? => if x.category = .unclassified then operandBehind target? else operandDue target?
  | operandBehind target? =>
    if x.category ∈ [.addition, .multiplication] then operandDue target?
    else if x.category ∈ [.relation, .logicalOr, .logicalAnd, .comma] then operandDue none
    else start index x

/-- What a name is in a phase. -/
def role? : Phase → Option Role
  | resting | named _ | operandBehind _ => some .target
  | nameDue type => some (.declared type)
  | reading => some .readTarget
  | operandDue target? => some (.operand target?)
  | typeDue | assigning _ => none

end Phase

/-- The phase before a lexeme. -/
def phaseAt (program : List Lexeme) : Nat → Phase
  | 0 => .resting
  | index + 1 => (wordAt? program index).elim (phaseAt program index) fun x => (phaseAt program index).next index x

/-- What the name of an index is, if there is one outside comments. -/
def roleAt? (program : List Lexeme) (index : Nat) : Option Role :=
  if (wordAt? program index).any (·.category = .unclassified) then (phaseAt program index).role? else none

/-! ## Blocks -/

/-- A variable that is declared by the name of an index. -/
structure Declaration where
  index : Nat
  name : String
  type : DataType
  deriving DecidableEq

/-- Adds a declaration to the innermost block. -/
def addDeclaration (d : Declaration) : List (List Declaration) → List (List Declaration)
  | [] => []
  | block :: rest => (block ++ [d]) :: rest

/-- The blocks behind a word: `program`, `begin` and `[` open one, `]` and `end` close one. -/
def blocksBehind (index : Nat) (phase : Phase) (x : Lexeme) (blocks : List (List Declaration)) :
    List (List Declaration) :=
  match x.category, phase with
  | .programWord, _ => [[]]
  | .beginWord, _ | .compoundOpen, _ => [] :: blocks
  | .compoundClose, _ | .endWord, _ => blocks.tail
  | .unclassified, .nameDue type => addDeclaration ⟨index, x.text, type⟩ blocks
  | _, _ => blocks

/-- The declarations of the blocks that are open before a lexeme, the innermost block first. -/
def blocksAt (program : List Lexeme) : Nat → List (List Declaration)
  | 0 => []
  | index + 1 =>
    (wordAt? program index).elim (blocksAt program index) fun x =>
      blocksBehind index (phaseAt program index) x (blocksAt program index)

/-- The innermost declaration of a name. -/
def findIn? (blocks : List (List Declaration)) (name : String) : Option Declaration :=
  blocks.findSome? fun block => block.find? (·.name = name)

/-- A name of the given type is declared by the lexeme of an index. -/
def Declaration.standsIn (d : Declaration) (program : List Lexeme) : Prop :=
  roleAt? program d.index = some (.declared d.type) ∧ (wordAt? program d.index).map (·.text) = some d.name

/-- A name means at an index the given earlier declaration. -/
structure Finds (program : List Lexeme) (index : Nat) (name : String) (d : Declaration) : Prop where
  found : findIn? (blocksAt program index) name = some d
  earlier : d.index < index
  stands : d.standsIn program

/-- The name of an index means a variable of the given type. -/
def TypedAt (program : List Lexeme) (index : Nat) (type : DataType) : Prop :=
  ∃ x d, wordAt? program index = some x ∧ Finds program index x.text d ∧ d.type = type

/-- A name that is used means a variable, or is a literal operand. In an assignment it means one of the type of the
target, or is a literal of that type. -/
def Agrees (program : List Lexeme) (index : Nat) (x : Lexeme) : Role → Prop
  | .declared _ => True
  | .target | .readTarget => ∃ type, TypedAt program index type
  | .operand none => (DataType.ofLiteral? x.text).isSome ∨ ∃ type, TypedAt program index type
  | .operand (some target) => ∃ type, TypedAt program target type ∧
      if (DataType.ofLiteral? x.text).isSome then type.acceptsLiteral x.text = true else TypedAt program index type

/-! ## Declarations -/

variable {program : List Lexeme} {i : Nat} {x : Lexeme} {d : Declaration}

theorem roleAt?_of_unclassified (hx : wordAt? program i = some x) (hc : x.category = .unclassified) :
    roleAt? program i = (phaseAt program i).role? := by
  simp [roleAt?, hx, hc]

theorem mem_addDeclaration {blocks : List (List Declaration)} {block : List Declaration} {d' : Declaration}
    (hb : block ∈ addDeclaration d' blocks) (hd : d ∈ block) : d = d' ∨ ∃ block ∈ blocks, d ∈ block := by
  cases blocks with
  | nil => cases hb
  | cons first rest =>
    rcases List.mem_cons.mp hb with rfl | hb
    · rcases List.mem_append.mp hd with hd | hd
      · exact .inr ⟨first, List.mem_cons_self, hd⟩
      · exact .inl (List.mem_singleton.mp hd)
    · exact .inr ⟨block, List.mem_cons_of_mem _ hb, hd⟩

/-- A declaration that a word adds is that of its name. -/
theorem mem_blocksBehind {phase : Phase} {blocks : List (List Declaration)} {block : List Declaration}
    (hb : block ∈ blocksBehind i phase x blocks) (hd : d ∈ block) :
    (∃ type, x.category = .unclassified ∧ phase = .nameDue type ∧ d = ⟨i, x.text, type⟩) ∨
      ∃ block ∈ blocks, d ∈ block := by
  unfold blocksBehind at hb
  split at hb
  · obtain rfl := List.mem_singleton.mp hb
    cases hd
  · rcases List.mem_cons.mp hb with rfl | hb
    · cases hd
    · exact .inr ⟨block, hb, hd⟩
  · rcases List.mem_cons.mp hb with rfl | hb
    · cases hd
    · exact .inr ⟨block, hb, hd⟩
  · exact .inr ⟨block, List.mem_of_mem_tail hb, hd⟩
  · exact .inr ⟨block, List.mem_of_mem_tail hb, hd⟩
  · rename_i type hx
    rcases mem_addDeclaration hb hd with rfl | h
    · exact .inl ⟨type, hx, rfl, rfl⟩
    · exact .inr h
  · exact .inr ⟨block, hb, hd⟩

/-- The declarations of the open blocks stand before. -/
theorem standsIn_of_mem {block : List Declaration} (hb : block ∈ blocksAt program i) (hd : d ∈ block) :
    d.index < i ∧ d.standsIn program := by
  induction i generalizing block with
  | zero => cases hb
  | succ i ih =>
    rw [blocksAt] at hb
    cases hx : wordAt? program i with
    | none =>
      rw [hx] at hb
      obtain ⟨hlt, hstands⟩ := ih hb hd
      exact ⟨by omega, hstands⟩
    | some x =>
      rw [hx] at hb
      rcases mem_blocksBehind hb hd with ⟨type, hc, hphase, rfl⟩ | ⟨block, hb, hd⟩
      · refine ⟨by simp, ?_, by rw [hx]; rfl⟩
        rw [roleAt?_of_unclassified hx hc, hphase]
        rfl
      · obtain ⟨hlt, hstands⟩ := ih hb hd
        exact ⟨by omega, hstands⟩

theorem mem_of_findIn? {blocks : List (List Declaration)} {name : String} (h : findIn? blocks name = some d) :
    ∃ block ∈ blocks, d ∈ block := by
  obtain ⟨block, hb, hd⟩ := List.exists_of_findSome?_eq_some h
  exact ⟨block, hb, List.mem_of_find?_eq_some hd⟩

theorem finds_of_findIn? {name : String} (h : findIn? (blocksAt program i) name = some d) : Finds program i name d := by
  obtain ⟨block, hb, hd⟩ := mem_of_findIn? h
  obtain ⟨hlt, hstands⟩ := standsIn_of_mem hb hd
  exact ⟨h, hlt, hstands⟩

end MiniPascal
