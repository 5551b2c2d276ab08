import MiniPascal.Proofs.Scope.History

/-!
# Resolution is told by the history

The type of a name as seen from a block is the one that the name got first in the nearest block around it in which it
was ever declared, whatever else was opened, closed and declared in between, and in whatever order.

* `History.Path`: a block and the blocks around it, as the history opened them.
* `Records.path_eq` and `Records.resolve?_eq`: the walk of the table up from a block follows that path.
* `Records.resolve?_apply`: a name changes its meaning in a block only by a declaration on the path.
* `Records.mem_declared_iff`: a block lists exactly the variables that were declared in it.
* `History.explains_table`: all of this about the table behind any history.
-/

namespace MiniPascal

/-! ## Paths of a history -/

namespace History

/-- The blocks from a block to the global one, the block itself first, as a history opened them. -/
inductive Path (h : History) : Nat → List Nat → Prop
  | global : Path h 0 [0]
  | inner {b p : Nat} {path : List Nat} (hparent : h.parent? b = some p) (rest : Path h p path) : Path h b (b :: path)

variable {h : History} {b p : Nat} {path : List Nat}

theorem lt_blockCount_of_parent? (hparent : h.parent? b = some p) : b < h.blockCount := by
  cases b with
  | zero => cases hparent
  | succ b => exact Nat.succ_lt_succ (List.getElem?_eq_some_iff.mp hparent).1

theorem Path.lt_blockCount (hpath : h.Path b path) : b < h.blockCount := by
  cases hpath with
  | global => exact Nat.succ_pos _
  | inner hparent _ => exact lt_blockCount_of_parent? hparent

end History

namespace Records

variable {h : History} {t : ScopeTable} {b : Nat} {path : List Nat} {block : Block}

/-- Every block has a path, since blocks are opened in older ones. -/
theorem exists_path (hr : Records h t) (hb : b < h.blockCount) : ∃ path, h.Path b path := by
  induction b using Nat.strongRecOn with
  | ind b ih =>
    cases b with
    | zero => exact ⟨[0], .global⟩
    | succ b =>
      have hopened : b < h.parents.length := Nat.lt_of_succ_lt_succ hb
      have hparent : h.parent? (b + 1) = some h.parents[b] := List.getElem?_eq_getElem hopened
      have hlt := hr.parent_lt hparent
      obtain ⟨path, hpath⟩ := ih _ hlt (Nat.lt_trans hlt hb)
      exact ⟨_, .inner hparent hpath⟩

/-- The table walks up from a block along the path of the history. -/
theorem path_eq (hr : Records h t) (hpath : h.Path b path) : t.path b = path := by
  induction hpath with
  | global => exact ScopeTable.path_of_parent_none (hr.parent 0)
  | inner hparent _ ih =>
    rw [ScopeTable.path_of_parent ((hr.parent _).trans hparent) (hr.parent_lt hparent), ih]

theorem resolve?_eq (hr : Records h t) (hpath : h.Path b path) (name : String) :
    t.resolve? b name = path.findSome? (h.firstType? · name) := by
  rw [ScopeTable.resolve?, hr.path_eq hpath]
  exact congrArg (path.findSome? ·) (funext fun a => hr.lookup a name)

/-! ## What does not change the meaning of a name -/

theorem path_apply (hr : Records h t) (op : Operation) (hpath : h.Path b path) : (op.apply t).path b = path := by
  rw [← hr.path_eq hpath]
  refine ScopeTable.path_congr fun a ha => ?_
  have hlt : a < t.blocks.size := hr.size ▸ Nat.lt_of_le_of_lt ha hpath.lt_blockCount
  rw [op.parent?_apply, if_neg (Nat.ne_of_lt hlt)]

/-- Only a declaration of the name in a block of the path can change what the name means in the block. -/
theorem resolve?_apply (hr : Records h t) (hpath : h.Path b path) {op : Operation} {name : String}
    (hop : ∀ c ∈ op.block?, c < h.blockCount) (hoff : ∀ a ∈ path, ∀ type, op ≠ .declare a name type) :
    (op.apply t).resolve? b name = t.resolve? b name := by
  have hkept : ∀ a ∈ path, (op.apply t).lookup? a name = t.lookup? a name := by
    intro a ha
    rw [Operation.lookup?_apply (hr.size ▸ hop), Operation.typeFor?_eq_none_iff.mpr (hoff a ha), Option.or_none]
  exact ScopeTable.resolve?_congr ((hr.path_apply op hpath).trans (hr.path_eq hpath).symm)
    fun a ha => hkept a (hr.path_eq hpath ▸ ha)

/-! ## The variables of a block -/

theorem nodup_declared (hr : Records h t) (hb : t.blocks[b]? = some block) : (block.declared.map (·.1)).Nodup := by
  refine List.pairwise_map.mpr ((hr.sorted hb).imp fun hlt heq => ?_)
  rw [heq] at hlt
  exact Nat.lt_irrefl _ hlt

theorem mem_declared_iff (hr : Records h t) (hb : t.blocks[b]? = some block) (v : String × DataType) :
    v ∈ block.declared ↔ h.firstType? b v.1 = some v.2 := by
  rw [← hr.lookup, ScopeTable.lookup?, hb, Option.bind_some, Block.lookup?, List.lookup_eq_some_iff]
  constructor
  · intro hv
    obtain ⟨before, behind, heq⟩ := List.append_of_mem hv
    refine ⟨before, behind, heq, fun w hw => bne_iff_ne.mpr fun hvw => ?_⟩
    have hlt := (List.pairwise_append.mp (heq ▸ hr.sorted hb)).2.2 w hw v List.mem_cons_self
    rw [hvw] at hlt
    exact Nat.lt_irrefl _ hlt
  · rintro ⟨before, behind, heq, _⟩
    rw [heq]
    exact List.mem_append_right _ List.mem_cons_self

/-- A declaration fails exactly if the block itself lists the name already. -/
theorem declare_eq_error_iff (hb : t.blocks[b]? = some block) {name : String} {type : DataType}
    {e : AlreadyDeclared} :
    t.declare b name type = .error e ↔ name ∈ block.declared.map (·.1) ∧ e = ⟨name, block.kind⟩ := by
  have hlisted : (t.lookup? b name).isSome ↔ name ∈ block.declared.map (·.1) := by
    rw [ScopeTable.lookup?, hb, Option.bind_some, Block.lookup?, List.lookup_isSome_iff, List.mem_map]
    exact exists_congr fun v => and_congr_right fun _ => beq_iff_eq.trans eq_comm
  rw [ScopeTable.declare_eq_error_iff, hlisted, ScopeTable.kindOf, hb, Option.elim_some]

end Records

/-! ## The table behind a history -/

/-- What a history says about the table behind it. -/
structure History.Explains (h : History) (t : ScopeTable) : Prop where
  size : t.blocks.size = h.blockCount
  path {b : Nat} (hb : b < h.blockCount) : ∃ path, h.Path b path
  /-- A name has the type that it got first in the nearest block in which it was declared, and none without such a
  block. -/
  resolve {b : Nat} {path : List Nat} (hpath : h.Path b path) (name : String) :
    t.resolve? b name = path.findSome? (h.firstType? · name)
  /-- Opening, closing and declaring elsewhere leave a name its type. -/
  stable {b : Nat} {path : List Nat} (hpath : h.Path b path) {op : Operation} {name : String}
    (hop : ∀ c ∈ op.block?, c < h.blockCount) (hoff : ∀ a ∈ path, ∀ type, op ≠ .declare a name type) :
    (op.apply t).resolve? b name = t.resolve? b name
  /-- A declaration fails exactly in a block that has the name already. -/
  refuse {b : Nat} {block : Block} (hb : t.blocks[b]? = some block) {name : String} {type : DataType}
    {e : AlreadyDeclared} :
    t.declare b name type = .error e ↔ name ∈ block.declared.map (·.1) ∧ e = ⟨name, block.kind⟩
  /-- A declaration that fails changes nothing. -/
  refused {b : Nat} {name : String} {type : DataType} {e : AlreadyDeclared} (he : t.declare b name type = .error e) :
    (Operation.declare b name type).apply t = t
  /-- A block lists the names that were declared in it, each once with the type that it got first. -/
  nodup {b : Nat} {block : Block} (hb : t.blocks[b]? = some block) : (block.declared.map (·.1)).Nodup
  listed {b : Nat} {block : Block} (hb : t.blocks[b]? = some block) (v : String × DataType) :
    v ∈ block.declared ↔ h.firstType? b v.1 = some v.2
  /-- The list is in the order of the first declarations. -/
  sorted {b : Nat} {block : Block} (hb : t.blocks[b]? = some block) :
    block.declared.Pairwise fun v w => h.firstAt b v.1 < h.firstAt b w.1

/-- Whatever is opened, closed and declared in existing blocks, and in whatever order, the history tells what the table
holds and what every name means in every block. -/
theorem History.explains_table {h : History} (hproper : h.Proper) : h.Explains h.table :=
  have hr := records_table hproper
  { size := hr.size
    path := hr.exists_path
    resolve := hr.resolve?_eq
    stable := hr.resolve?_apply
    refuse := Records.declare_eq_error_iff
    refused := fun he => by rw [Operation.apply, he]
    nodup := hr.nodup_declared
    listed := hr.mem_declared_iff
    sorted := hr.sorted }

/-- Blocks get variables while they are open and after they were closed. Block 3 hides a name of block 1, and neither of
them takes the name again with another type. -/
def revisited : History :=
  [.openBlock .program 0, .declare 1 "x" .int, .openBlock .body 1, .openBlock (.compound 0) 2, .declare 3 "x" .bool,
    .closeBlock, .declare 3 "y" .float, .declare 3 "x" .int, .closeBlock, .openBlock .body 0, .declare 0 "z" .bool,
    .declare 1 "x" .float]

theorem explains_table_revisited :
    revisited.Explains revisited.table ∧
    revisited.Path 3 [3, 2, 1, 0] ∧ revisited.Path 2 [2, 1, 0] ∧ revisited.Path 4 [4, 0] ∧
    revisited.table.resolve? 3 "x" = some .bool ∧ revisited.table.resolve? 2 "x" = some .int ∧
    revisited.table.resolve? 4 "x" = none ∧ revisited.table.resolve? 3 "z" = some .bool ∧
    revisited.table.blocks[3]?.map (·.declared) = some [("x", .bool), ("y", .float)] := by
  have h := History.explains_table (h := revisited) (by decide)
  have hglobal : revisited.Path 0 [0] := .global
  have hprogram : revisited.Path 1 [1, 0] := .inner rfl hglobal
  have hbody : revisited.Path 2 [2, 1, 0] := .inner rfl hprogram
  have hcompound : revisited.Path 3 [3, 2, 1, 0] := .inner rfl hbody
  have hsecond : revisited.Path 4 [4, 0] := .inner rfl hglobal
  exact ⟨h, hcompound, hbody, hsecond, h.resolve hcompound "x", h.resolve hbody "x", h.resolve hsecond "x",
    h.resolve hcompound "z", by decide⟩

end MiniPascal
