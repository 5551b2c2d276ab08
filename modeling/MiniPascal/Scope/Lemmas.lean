import MiniPascal.Scope.Basic

/-!
# What the operations of the scope table change

Opening adds a block behind the others, closing changes no block at all, and declaring adds one variable to one block.
So a name can only come to mean something else by a declaration in a block on the path. What can be asked of a table
behind an operation is rewritten by `simp` to what can be asked of the table before.

* `mem_path_self`, `le_of_mem_path`: the path of a block begins with it and leads to older blocks.
* `path_congr`, `resolve?_congr`: what the path of a block and the type of a name in it depend on.
* `resolve?_of_parent`, `compoundDepth_of_parent`: what can be read off a path, block by block.
* `path_openBlock`, `path_closeBlock`, `path_of_declare`: no operation changes the path of an existing block.
* `lookup?_openBlock`, `lookup?_closeBlock`, `lookup?_of_declare`: what each operation does to the types of names.
* `eq_of_declare`: what a declaration is, and the lemmas behind it: what it leaves of a table.
-/

namespace MiniPascal.ScopeTable

variable {t u : ScopeTable} {id p : Nat}

/-! ## Places without a block -/

theorem parent?_of_size_le (h : t.blocks.size ≤ id) : t.parent? id = none := by
  rw [parent?, Array.getElem?_eq_none h]
  rfl

theorem lookup?_of_size_le (h : t.blocks.size ≤ id) (name : String) : t.lookup? id name = none := by
  rw [lookup?, Array.getElem?_eq_none h]
  rfl

/-! ## Paths -/

theorem path_of_parent (h : t.parent? id = some p) (hp : p < id) : t.path id = id :: t.path p := by
  rw [path, h]
  simp [hp]

theorem path_of_parent_none (h : t.parent? id = none) : t.path id = [id] := by
  rw [path, h]

@[simp]
theorem mem_path_self : id ∈ t.path id := by
  rw [path]
  split
  · split <;> simp
  · simp

/-- A path leads to older blocks only. -/
theorem le_of_mem_path {b : Nat} (h : b ∈ t.path id) : b ≤ id := by
  fun_induction path t id with
  | case1 id p _ hp ih =>
    rcases List.mem_cons.mp h with rfl | h
    · exact Nat.le_refl _
    · exact Nat.le_trans (ih h) (Nat.le_of_lt hp)
  | case2 | case3 => exact Nat.le_of_eq (List.mem_singleton.mp h)

/-- Paths depend on the blocks around the blocks alone. -/
theorem path_congr (h : ∀ b ≤ id, t.parent? b = u.parent? b) : t.path id = u.path id := by
  fun_induction path t id with
  | case1 id p hparent hp ih =>
    rw [h id (Nat.le_refl _)] at hparent
    rw [path_of_parent hparent hp, ih fun b hb => h b (Nat.le_trans hb (Nat.le_of_lt hp))]
  | case2 id p hparent hp =>
    rw [h id (Nat.le_refl _)] at hparent
    rw [path, hparent]
    simp [hp]
  | case3 id hparent =>
    rw [h id (Nat.le_refl _)] at hparent
    rw [path_of_parent_none hparent]

/-- The type of a name depends on the blocks of the path alone. -/
theorem resolve?_congr {name : String} (hp : u.path id = t.path id)
    (hl : ∀ b ∈ t.path id, u.lookup? b name = t.lookup? b name) : u.resolve? id name = t.resolve? id name := by
  have h := congrArg (List.findSome? fun type => type) (List.map_congr_left hl)
  rw [List.findSome?_map, List.findSome?_map] at h
  rw [resolve?, resolve?, hp]
  exact h

/-- A name that a block itself does not have means what it means in the block around it. -/
theorem resolve?_of_parent (h : t.parent? id = some p) (hp : p < id) (name : String) :
    t.resolve? id name = (t.lookup? id name).or (t.resolve? p name) := by
  rw [resolve?, path_of_parent h hp, List.findSome?_cons]
  cases t.lookup? id name <;> rfl

theorem compoundDepth_of_parent (h : t.parent? id = some p) (hp : p < id) :
    t.compoundDepth id = t.compoundDepth p + if (t.kindOf id).isCompound then 1 else 0 := by
  rw [compoundDepth, path_of_parent h hp, List.countP_cons, compoundDepth]

/-! ## Opening -/

theorem getElem?_openBlock (t : ScopeTable) (kind : BlockKind) (p b : Nat) :
    ∃ k, (t.openBlock kind p).blocks[b]? = if b = t.blocks.size then some ⟨k, some p, []⟩ else t.blocks[b]? :=
  ⟨_, Array.getElem?_push⟩

@[simp]
theorem size_openBlock (kind : BlockKind) : (t.openBlock kind p).blocks.size = t.blocks.size + 1 :=
  Array.size_push _

@[simp]
theorem current?_openBlock (kind : BlockKind) : (t.openBlock kind p).current? = some t.blocks.size := rfl

@[simp]
theorem compounds_openBlock (kind : BlockKind) :
    (t.openBlock kind p).compounds = if kind.isCompound then t.compounds + 1 else t.compounds := rfl

@[simp]
theorem blocks_openBlock (kind : BlockKind) (h : id < t.blocks.size) :
    (t.openBlock kind p).blocks[id]? = t.blocks[id]? := by
  simp [openBlock, Array.getElem?_push, Nat.ne_of_lt h]

@[simp]
theorem parent?_openBlock (kind : BlockKind) (h : id < t.blocks.size) :
    (t.openBlock kind p).parent? id = t.parent? id := by
  simp [parent?, h]

@[simp]
theorem parent?_openBlock_new (kind : BlockKind) : (t.openBlock kind p).parent? t.blocks.size = some p := by
  simp [openBlock, parent?]

@[simp]
theorem kindOf_openBlock (kind : BlockKind) (h : id < t.blocks.size) :
    (t.openBlock kind p).kindOf id = t.kindOf id := by
  simp [kindOf, h]

@[simp]
theorem lookup?_openBlock (kind : BlockKind) (h : id < t.blocks.size) (name : String) :
    (t.openBlock kind p).lookup? id name = t.lookup? id name := by
  simp [lookup?, h]

@[simp]
theorem path_openBlock (kind : BlockKind) (h : id < t.blocks.size) :
    (t.openBlock kind p).path id = t.path id :=
  path_congr fun _ hb => parent?_openBlock kind (Nat.lt_of_le_of_lt hb h)

@[simp]
theorem size_openInner (kind : BlockKind) : (t.openInner kind).blocks.size = t.blocks.size + 1 :=
  size_openBlock kind

@[simp]
theorem blocks_openInner (kind : BlockKind) (h : id < t.blocks.size) :
    (t.openInner kind).blocks[id]? = t.blocks[id]? :=
  blocks_openBlock kind h

@[simp]
theorem parent?_openInner_new (kind : BlockKind) :
    (t.openInner kind).parent? t.blocks.size = some (t.current?.getD global) :=
  parent?_openBlock_new kind

/-! ## Closing -/

@[simp]
theorem blocks_closeBlock : t.closeBlock.blocks = t.blocks := rfl

@[simp]
theorem compounds_closeBlock : t.closeBlock.compounds = t.compounds := rfl

/-- Leaving a block leads to the one around it, unless that is the global one. -/
theorem current?_closeBlock_eq_some_iff :
    t.closeBlock.current? = some p ↔ p ≠ global ∧ ∃ b, t.current? = some b ∧ t.parent? b = some p := by
  simp [closeBlock, Option.filter_eq_some_iff, Option.bind_eq_some_iff, and_comm]

@[simp]
theorem lookup?_closeBlock (name : String) : t.closeBlock.lookup? id name = t.lookup? id name := rfl

@[simp]
theorem path_closeBlock : t.closeBlock.path id = t.path id :=
  path_congr fun _ _ => rfl

/-! ## Declaring -/

/-- A declaration fails exactly where the block itself has the name already. -/
theorem declare_eq_error_iff {name : String} {type : DataType} {e : AlreadyDeclared} :
    t.declare id name type = .error e ↔ (t.lookup? id name).isSome ∧ e = ⟨name, t.kindOf id⟩ := by
  rw [declare]
  split
  · rename_i hl
    exact ⟨fun he => by cases he; exact ⟨hl, rfl⟩, fun he => by rw [he.2]⟩
  · rename_i hl
    exact ⟨nofun, fun he => absurd he.1 hl⟩

section Declared

variable {name : String} {type : DataType} (h : t.declare id name type = .ok u)
include h

/-- A name that is declared was free in its block, and nothing but that block is changed. -/
theorem eq_of_declare : t.lookup? id name = none ∧ u = { t with blocks := t.blocks.modify id (·.add name type) } := by
  rw [declare] at h
  split at h
  case isTrue => cases h
  case isFalse hfree => exact ⟨Option.not_isSome_iff_eq_none.mp hfree, (Except.ok.inj h).symm⟩

theorem lookup?_of_declare_eq_ok : t.lookup? id name = none :=
  (eq_of_declare h).1

theorem current?_of_declare : u.current? = t.current? := by
  rw [(eq_of_declare h).2]

theorem compounds_of_declare : u.compounds = t.compounds := by
  rw [(eq_of_declare h).2]

theorem size_of_declare : u.blocks.size = t.blocks.size := by
  rw [(eq_of_declare h).2, Array.size_modify]

theorem getElem?_of_declare (b : Nat) :
    u.blocks[b]? = if id = b then t.blocks[b]?.map (·.add name type) else t.blocks[b]? := by
  rw [(eq_of_declare h).2, Array.getElem?_modify]

theorem parent?_of_declare (b : Nat) : u.parent? b = t.parent? b := by
  rw [parent?, getElem?_of_declare h, parent?]
  split <;> cases t.blocks[b]? <;> rfl

theorem path_of_declare (b : Nat) : u.path b = t.path b :=
  path_congr fun b _ => parent?_of_declare h b

/-- A declaration gives a type to one name in one block. -/
theorem lookup?_of_declare (hid : id < t.blocks.size) (b : Nat) (other : String) :
    u.lookup? b other = if b = id ∧ other = name then some type else t.lookup? b other := by
  have hfree := lookup?_of_declare_eq_ok h
  rw [lookup?, getElem?_of_declare h]
  rcases Decidable.em (id = b) with rfl | hb
  · obtain ⟨block, hblock⟩ : ∃ block, t.blocks[id]? = some block := ⟨_, Array.getElem?_eq_getElem hid⟩
    rw [lookup?, hblock] at hfree ⊢
    simp only [Option.bind_some, Block.lookup?] at hfree
    rcases Decidable.em (other = name) with rfl | hother
    · simp [Block.lookup?, Block.add, List.lookup_append, hfree]
    · have hne : (other == name) = false := beq_eq_false_iff_ne.mpr hother
      simp [Block.lookup?, Block.add, List.lookup_append, List.lookup_cons, hother, hne]
  · rw [lookup?]
    simp [hb, Ne.symm hb]

end Declared

end MiniPascal.ScopeTable
