import MiniPascal.Goal.Reaction
import MiniPascal.Scope.Lemmas

/-!
# Scope tables under other names

A scope table whose variables get other names answers every question as before, as long as the new names tell apart what
the old ones did (`Tells`); the operations lead from renamed tables to renamed tables.

* `ScopeTable.renamed`: the table with its variables renamed; `simp` asks the table itself instead.
* `ScopeTable.find?_renamed`, `ScopeTable.declare_renamed`: looking for a name and declaring one.
-/

namespace MiniPascal

/-- The block with its variables renamed. -/
def Block.renamed (f : String → String) (b : Block) : Block :=
  { b with declared := b.declared.map fun v => (f v.1, v.2) }

namespace ScopeTable

variable {f : String → String} {t u : ScopeTable} {id p : Nat} {name : String} {type : DataType}

/-- The table with its variables renamed. -/
def renamed (f : String → String) (t : ScopeTable) : ScopeTable :=
  { t with blocks := t.blocks.map (·.renamed f) }

/-- Renaming tells the variables of a table from a name as before. -/
def Tells (f : String → String) (t : ScopeTable) (name : String) : Prop :=
  ∀ b ∈ t.blocks, ∀ v ∈ b.declared, f v.1 = f name → v.1 = name

@[simp]
theorem getElem?_blocks_renamed : (t.renamed f).blocks[id]? = t.blocks[id]?.map (·.renamed f) :=
  Array.getElem?_map

/-! ## Questions -/

@[simp]
theorem current?_renamed : (t.renamed f).current? = t.current? := rfl

@[simp]
theorem parent?_renamed : (t.renamed f).parent? = t.parent? := by
  funext id
  cases h : t.blocks[id]? <;> simp [parent?, h, Block.renamed]

@[simp]
theorem kindOf_renamed : (t.renamed f).kindOf = t.kindOf := by
  funext id
  cases h : t.blocks[id]? <;> simp [kindOf, h, Block.renamed]

@[simp]
theorem path_renamed : (t.renamed f).path id = t.path id :=
  path_congr fun _ _ => by rw [parent?_renamed]

@[simp]
theorem compoundDepth_renamed : (t.renamed f).compoundDepth = t.compoundDepth := by
  funext id
  simp [compoundDepth]

@[simp]
theorem openCompounds_renamed : (t.renamed f).openCompounds = t.openCompounds := by
  simp [openCompounds]

@[simp]
theorem hasRoom_renamed (depth : Nat) : (t.renamed f).hasRoom depth = t.hasRoom depth := by
  rw [hasRoom, openCompounds_renamed, hasRoom]

@[simp]
theorem inCompound_renamed : (t.renamed f).inCompound = t.inCompound := by
  simp [inCompound, currentKind]

/-- A name that is told from others is found under its new name in a list of variables. -/
theorem lookup_renamed {declared : List (String × DataType)} (h : ∀ v ∈ declared, f v.1 = f name → v.1 = name) :
    (declared.map fun v => (f v.1, v.2)).lookup (f name) = declared.lookup name := by
  induction declared with
  | nil => rfl
  | cons v rest ih =>
    rw [List.map_cons, List.lookup_cons, List.lookup_cons, ih fun w hw => h w (List.mem_cons_of_mem _ hw)]
    have hsame : (f name == f v.1) = (name == v.1) := by
      rw [Bool.eq_iff_iff, beq_iff_eq, beq_iff_eq]
      exact ⟨fun heq => (h v List.mem_cons_self heq.symm).symm, fun heq => by rw [heq]⟩
    rw [hsame]

@[simp]
theorem lookup?_renamed (h : Tells f t name) : (t.renamed f).lookup? id (f name) = t.lookup? id name := by
  cases hb : t.blocks[id]? with
  | none => simp [lookup?, hb]
  | some b => simpa [lookup?, hb, Block.lookup?, Block.renamed] using lookup_renamed (h b (Array.mem_of_getElem? hb))

@[simp]
theorem find?_renamed (h : Tells f t name) : (t.renamed f).find? (f name) = t.find? name := by
  simp [find?, resolve?, h]

/-! ## Operations -/

@[simp]
theorem openBlock_renamed (kind : BlockKind) : (t.renamed f).openBlock kind p = (t.openBlock kind p).renamed f := by
  simp [renamed, openBlock, Block.renamed]

@[simp]
theorem openInner_renamed (kind : BlockKind) : (t.renamed f).openInner kind = (t.openInner kind).renamed f :=
  openBlock_renamed kind

@[simp]
theorem closeBlock_renamed : (t.renamed f).closeBlock = t.closeBlock.renamed f := by
  rw [closeBlock, parent?_renamed, current?_renamed]
  rfl

/-- Declaring a name that is told from others is declaring its new name. -/
theorem declare_renamed (h : Tells f t name) : (t.renamed f).declare id (f name) type =
    match t.declare id name type with
    | .ok u => .ok (u.renamed f)
    | .error e => .error ⟨f name, e.block⟩ := by
  simp only [declare, lookup?_renamed h, kindOf_renamed]
  split
  · rfl
  · have hblocks : (t.renamed f).blocks.modify id (·.add (f name) type) =
        (t.blocks.modify id (·.add name type)).map (·.renamed f) := by
      refine Array.ext_getElem? fun i => ?_
      cases hb : t.blocks[i]? <;> by_cases hi : id = i <;> simp [Array.getElem?_modify, hi, hb, Block.add, Block.renamed]
    simp only [hblocks]
    rfl

end ScopeTable

end MiniPascal
