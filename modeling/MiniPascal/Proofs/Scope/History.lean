import Mathlib.Data.List.Induction
import MiniPascal.Scope.Lemmas

/-!
# Histories of a scope table

Blocks are opened in any block that exists, closed, and given variables at any time, open or not. What a table holds
behind such operations is told by the operations alone: in which block each block was opened, and when a name was first
declared in a block.

* `Operation.apply`: the table behind an operation. `size_apply`, `parent?_apply`, `lookup?_apply` and
  `declared_apply` say all that an operation does to the blocks.
* `History`: what has been done to the empty table, and `History.table`, the table behind it.
* `History.parent?`, `History.firstType?`, `History.firstAt`: what a history says about a block.
* `Records`: a table agrees with a history; `Records.concat` is the step and `records_table` the run.
-/

namespace MiniPascal

/-! ## Operations -/

/-- What is done to a scope table. -/
inductive Operation where
  | openBlock (kind : BlockKind) (parent : Nat)
  | closeBlock
  | declare (block : Nat) (name : String) (type : DataType)
  deriving DecidableEq

namespace Operation

/-- The table behind an operation. A declaration that fails leaves the table as it is. -/
def apply (t : ScopeTable) : Operation → ScopeTable
  | openBlock kind parent => t.openBlock kind parent
  | closeBlock => t.closeBlock
  | declare block name type =>
    match t.declare block name type with
    | .ok declared => declared
    | .error _ => t

/-- The block to which an operation refers. -/
def block? : Operation → Option Nat
  | openBlock _ parent => some parent
  | closeBlock => none
  | declare block _ _ => some block

/-- The block in which an operation opens another one. -/
def parent? : Operation → Option Nat
  | openBlock _ parent => some parent
  | _ => none

/-- The type that an operation is to give to a name in a block. -/
def typeFor? (block : Nat) (name : String) : Operation → Option DataType
  | declare b n type => if b = block ∧ n = name then some type else none
  | _ => none

variable {t u : ScopeTable} {op : Operation} {b : Nat} {block : Block}

theorem typeFor?_eq_none_iff {name : String} : op.typeFor? b name = none ↔ ∀ type, op ≠ .declare b name type := by
  cases op with
  | openBlock | closeBlock => exact ⟨fun _ => nofun, fun _ => rfl⟩
  | declare c n t => simp [typeFor?]

theorem mem_block?_of_parent? {p : Nat} (hp : op.parent? = some p) : p ∈ op.block? := by
  cases op with
  | openBlock kind parent => exact hp
  | closeBlock | declare => cases hp

/-- A declaration succeeds, or it leaves the table as it is. -/
theorem apply_declare_cases (t : ScopeTable) (block : Nat) (name : String) (type : DataType) :
    t.declare block name type = .ok ((declare block name type).apply t) ∨
      (declare block name type).apply t = t ∧ (t.lookup? block name).isSome := by
  rw [apply]
  cases hd : t.declare block name type with
  | ok u => exact .inl rfl
  | error e => exact .inr ⟨rfl, (ScopeTable.declare_eq_error_iff.mp hd).1⟩

/-- An operation adds a block if it opens one. -/
@[simp]
theorem size_apply (op : Operation) (t : ScopeTable) :
    (op.apply t).blocks.size = t.blocks.size + op.parent?.toList.length := by
  cases op with
  | openBlock kind p => exact Array.size_push _
  | closeBlock => rfl
  | declare c name type =>
    rcases apply_declare_cases t c name type with hd | ⟨hsame, _⟩
    · exact ScopeTable.size_of_declare hd
    · rw [hsame]
      rfl

/-- Blocks stay in the blocks in which they were opened. -/
@[simp]
theorem parent?_apply (op : Operation) (t : ScopeTable) (b : Nat) :
    (op.apply t).parent? b = if b = t.blocks.size then op.parent? else t.parent? b := by
  have hkept (h : (op.apply t).parent? b = t.parent? b) (hop : op.parent? = none) :
      (op.apply t).parent? b = if b = t.blocks.size then op.parent? else t.parent? b := by
    split
    case isTrue hb => rw [h, hop, ScopeTable.parent?_of_size_le (Nat.le_of_eq hb.symm)]
    case isFalse => exact h
  cases op with
  | openBlock kind p =>
    obtain ⟨k, hk⟩ := ScopeTable.getElem?_openBlock t kind p b
    rw [apply, ScopeTable.parent?, hk]
    split
    case isTrue => rfl
    case isFalse => rfl
  | closeBlock => exact hkept rfl rfl
  | declare c name type =>
    refine hkept ?_ rfl
    rcases apply_declare_cases t c name type with hd | ⟨hsame, _⟩
    · exact ScopeTable.parent?_of_declare hd b
    · rw [hsame]

/-- A name that has a type in a block keeps it, and one that has none gets it by a declaration. -/
theorem lookup?_apply (hop : ∀ c ∈ op.block?, c < t.blocks.size) (b : Nat) (name : String) :
    (op.apply t).lookup? b name = (t.lookup? b name).or (op.typeFor? b name) := by
  cases op with
  | openBlock kind p =>
    obtain ⟨k, hk⟩ := ScopeTable.getElem?_openBlock t kind p b
    have hnone : (openBlock kind p).typeFor? b name = none := rfl
    rw [hnone, Option.or_none, apply, ScopeTable.lookup?, hk]
    split
    case isTrue hb =>
      rw [ScopeTable.lookup?_of_size_le (Nat.le_of_eq hb.symm)]
      rfl
    case isFalse => rfl
  | closeBlock => exact Option.or_none.symm
  | declare c n type =>
    rw [typeFor?]
    rcases apply_declare_cases t c n type with hd | ⟨hsame, hold⟩
    · have hfree := ScopeTable.lookup?_of_declare_eq_ok hd
      rw [ScopeTable.lookup?_of_declare hd (hop c rfl)]
      by_cases heq : c = b ∧ n = name
      · obtain ⟨rfl, rfl⟩ := heq
        simp [hfree]
      · have heq' : ¬(b = c ∧ name = n) := fun h => heq ⟨h.1.symm, h.2.symm⟩
        rw [if_neg heq, if_neg heq', Option.or_none]
    · rw [hsame]
      split
      case isTrue heq =>
        obtain ⟨rfl, rfl⟩ := heq
        obtain ⟨old, hold⟩ := Option.isSome_iff_exists.mp hold
        rw [hold]
        rfl
      case isFalse => rw [Option.or_none]

/-- The variables of a block stay as they are, but for a declaration in it that adds a variable of a new name. -/
theorem declared_apply (hb : (op.apply t).blocks[b]? = some block) : block.declared = [] ∨
    ∃ old, t.blocks[b]? = some old ∧ (block.declared = old.declared ∨ ∃ name type, op = .declare b name type ∧
      t.lookup? b name = none ∧ block.declared = old.declared ++ [(name, type)]) := by
  cases op with
  | openBlock kind p =>
    obtain ⟨k, hk⟩ := ScopeTable.getElem?_openBlock t kind p b
    rw [apply, hk] at hb
    split at hb
    case isTrue =>
      cases hb
      exact .inl rfl
    case isFalse => exact .inr ⟨block, hb, .inl rfl⟩
  | closeBlock => exact .inr ⟨block, hb, .inl rfl⟩
  | declare c name type =>
    rcases apply_declare_cases t c name type with hd | ⟨hsame, _⟩
    · rw [ScopeTable.getElem?_of_declare hd] at hb
      split at hb
      case isFalse => exact .inr ⟨block, hb, .inl rfl⟩
      case isTrue hcb =>
        subst hcb
        obtain ⟨old, hold, rfl⟩ := Option.map_eq_some_iff.mp hb
        exact .inr ⟨old, hold, .inr ⟨name, type, rfl, ScopeTable.lookup?_of_declare_eq_ok hd, rfl⟩⟩
    · rw [hsame] at hb
      exact .inr ⟨block, hb, .inl rfl⟩

end Operation

/-! ## Histories -/

/-- What has been done to the empty table, in the order of time. -/
abbrev History := List Operation

namespace History

/-- The table behind a history. -/
def table (h : History) : ScopeTable :=
  h.foldl Operation.apply .empty

/-- The blocks in which blocks were opened, in the order of opening. -/
def parents (h : History) : List Nat :=
  h.filterMap (·.parent?)

/-- The number of blocks: the global one and those that were opened. -/
def blockCount (h : History) : Nat :=
  h.parents.length + 1

/-- Every operation refers to a block that exists by then. -/
def Proper (h : History) : Prop :=
  ∀ i (hi : i < h.length), ∀ b ∈ h[i].block?, b < blockCount (h.take i)

instance (h : History) : Decidable h.Proper :=
  inferInstanceAs (Decidable (∀ i (hi : i < h.length), ∀ b ∈ h[i].block?, b < blockCount (h.take i)))

/-- The block in which a block was opened; the global one is in none. -/
def parent? (h : History) : Nat → Option Nat
  | 0 => none
  | b + 1 => h.parents[b]?

/-- The type that the first declaration of a name in a block was to give to it. -/
def firstType? (h : History) (block : Nat) (name : String) : Option DataType :=
  h.findSome? (·.typeFor? block name)

/-- The place of the first declaration of a name in a block, behind the history if there is none. -/
def firstAt (h : History) (block : Nat) (name : String) : Nat :=
  h.findIdx fun op => (op.typeFor? block name).isSome

/-! ## One operation more -/

section Concat

variable (h : History) (op : Operation) (b : Nat) (name : String)

@[simp]
theorem table_concat : table (h ++ [op]) = op.apply h.table := by
  rw [table, List.foldl_append]
  rfl

@[simp]
theorem parents_cons : parents (op :: h) = op.parent?.toList ++ h.parents := by
  cases hp : op.parent? <;> simp [parents, hp]

@[simp]
theorem parents_concat : parents (h ++ [op]) = h.parents ++ op.parent?.toList := by
  rw [parents, List.filterMap_append]
  cases hp : op.parent? <;> simp [parents, hp]

@[simp]
theorem blockCount_concat : blockCount (h ++ [op]) = h.blockCount + op.parent?.toList.length := by
  rw [blockCount, parents_concat, List.length_append, blockCount, Nat.add_right_comm]

@[simp]
theorem parent?_concat : parent? (h ++ [op]) b = if b = h.blockCount then op.parent? else h.parent? b := by
  cases b with
  | zero => rfl
  | succ b =>
    simp only [parent?, parents_concat, blockCount, Nat.add_right_cancel_iff]
    split
    case isTrue hb =>
      rw [hb, List.getElem?_append_right (Nat.le_refl _), Nat.sub_self]
      cases op.parent? <;> rfl
    case isFalse hb =>
      rcases Nat.lt_or_gt_of_ne hb with hlt | hgt
      · rw [List.getElem?_append_left hlt]
      · have hlength : op.parent?.toList.length ≤ 1 := by cases op.parent? <;> simp
        have hbehind : (h.parents ++ op.parent?.toList).length ≤ b := by
          rw [List.length_append]
          omega
        rw [List.getElem?_eq_none hbehind, List.getElem?_eq_none (Nat.le_of_lt hgt)]

@[simp]
theorem firstType?_concat : firstType? (h ++ [op]) b name = (h.firstType? b name).or (op.typeFor? b name) := by
  rw [firstType?, List.findSome?_append]
  cases ht : op.typeFor? b name <;> simp [firstType?, ht]

theorem firstAt_lt_iff : h.firstAt b name < h.length ↔ (h.firstType? b name).isSome := by
  rw [firstAt, List.findIdx_lt_length, firstType?, List.findSome?_isSome_iff]

variable {b name}

/-- Later operations do not move a first declaration. -/
theorem firstAt_concat_of_isSome (hfirst : (h.firstType? b name).isSome) :
    firstAt (h ++ [op]) b name = h.firstAt b name := by
  have hlt := (h.firstAt_lt_iff b name).mpr hfirst
  rw [firstAt] at hlt ⊢
  rw [List.findIdx_append, if_pos hlt, firstAt]

/-- A first declaration stands behind the operations before it. -/
theorem firstAt_concat_of_none (hnone : h.firstType? b name = none) (hop : (op.typeFor? b name).isSome) :
    firstAt (h ++ [op]) b name = h.length := by
  have hge : ¬h.firstAt b name < h.length := by
    rw [firstAt_lt_iff, hnone]
    exact Bool.false_ne_true
  rw [firstAt] at hge ⊢
  rw [List.findIdx_append, if_neg hge]
  simp [List.findIdx_cons, hop]

theorem proper_concat : Proper (h ++ [op]) ↔ h.Proper ∧ ∀ b ∈ op.block?, b < h.blockCount := by
  constructor
  · intro hproper
    constructor
    · intro i hi b hb
      have hlt := hproper i (by simp; omega) b (by rwa [List.getElem_append_left hi])
      rwa [List.take_append_of_le_length (Nat.le_of_lt hi)] at hlt
    · intro b hb
      have hlt := hproper h.length (by simp) b (by simpa using hb)
      rwa [List.take_left] at hlt
  · rintro ⟨hproper, hop⟩ i hi b hb
    rw [List.length_append, List.length_singleton] at hi
    rcases Nat.lt_succ_iff_lt_or_eq.mp hi with hlt | rfl
    · rw [List.getElem_append_left hlt] at hb
      rw [List.take_append_of_le_length (Nat.le_of_lt hlt)]
      exact hproper i hlt b hb
    · rw [List.take_left]
      exact hop b (by simpa using hb)

end Concat

end History

/-! ## Tables and their histories -/

/-- A table agrees with a history: it has the blocks that were opened, in the blocks in which they were opened, and the
variables that were declared, each with the type that it got first, in the order of their first declarations. -/
structure Records (h : History) (t : ScopeTable) : Prop where
  size : t.blocks.size = h.blockCount
  parent (b : Nat) : t.parent? b = h.parent? b
  parent_lt {b p : Nat} (hp : h.parent? b = some p) : p < b
  lookup (b : Nat) (name : String) : t.lookup? b name = h.firstType? b name
  sorted {b : Nat} {block : Block} (hb : t.blocks[b]? = some block) :
    block.declared.Pairwise fun v w => h.firstAt b v.1 < h.firstAt b w.1

namespace Records

variable {h : History} {t : ScopeTable} {op : Operation} {b : Nat} {block : Block}

theorem empty : Records [] .empty where
  size := rfl
  parent b := by cases b <;> rfl
  parent_lt {b p} hp := by cases b <;> cases hp
  lookup b name := by
    rcases Nat.eq_zero_or_pos b with rfl | hb
    · rfl
    · exact ScopeTable.lookup?_of_size_le hb name
  sorted {b block} hb := by
    rcases Nat.eq_zero_or_pos b with rfl | hpos
    · cases hb
      exact .nil
    · rw [Array.getElem?_eq_none hpos] at hb
      cases hb

/-- A variable of a block was declared in it. -/
theorem isSome_of_mem (hr : Records h t) (hb : t.blocks[b]? = some block) {v : String × DataType}
    (hv : v ∈ block.declared) : (h.firstType? b v.1).isSome := by
  rw [← hr.lookup, ScopeTable.lookup?, hb, Option.bind_some, Block.lookup?, List.lookup_isSome_iff]
  exact ⟨v, hv, beq_self_eq_true _⟩

/-- The variables that a block had stay in their order. -/
theorem sorted_concat (hr : Records h t) (op : Operation) (hb : t.blocks[b]? = some block) :
    block.declared.Pairwise fun v w => History.firstAt (h ++ [op]) b v.1 < History.firstAt (h ++ [op]) b w.1 := by
  refine (hr.sorted hb).imp_of_mem fun hv hw hlt => ?_
  rw [h.firstAt_concat_of_isSome op (hr.isSome_of_mem hb hv), h.firstAt_concat_of_isSome op (hr.isSome_of_mem hb hw)]
  exact hlt

/-- The table behind an operation agrees with the history that goes on with it. -/
theorem concat (hr : Records h t) (hop : ∀ b ∈ op.block?, b < h.blockCount) :
    Records (h ++ [op]) (op.apply t) where
  size := by simp [hr.size]
  parent b := by simp [hr.size, hr.parent]
  parent_lt {b p} hp := by
    rw [h.parent?_concat] at hp
    split at hp
    case isTrue hb => exact hb ▸ hop p (Operation.mem_block?_of_parent? hp)
    case isFalse => exact hr.parent_lt hp
  lookup b name := by simp [Operation.lookup?_apply (hr.size ▸ hop), hr.lookup]
  sorted {b block} hb := by
    rcases Operation.declared_apply hb with hnil | ⟨old, hold, hsame | ⟨name, type, rfl, hfree, hnew⟩⟩
    · exact hnil ▸ .nil
    · exact hsame ▸ hr.sorted_concat op hold
    · have hlast : History.firstAt (h ++ [.declare b name type]) b name = h.length :=
        h.firstAt_concat_of_none _ (hr.lookup b name ▸ hfree) (by simp [Operation.typeFor?])
      rw [hnew]
      refine List.pairwise_append.mpr ⟨hr.sorted_concat _ hold, List.pairwise_singleton _ _, ?_⟩
      intro v hv w hw
      have hearlier := hr.isSome_of_mem hold hv
      rw [List.mem_singleton.mp hw, hlast, h.firstAt_concat_of_isSome _ hearlier]
      exact (h.firstAt_lt_iff b v.1).mpr hearlier

end Records

/-- The table behind a history agrees with it. -/
theorem records_table {h : History} (hproper : h.Proper) : Records h h.table := by
  induction h using List.reverseRecOn with
  | nil => exact .empty
  | append_singleton h op ih =>
    obtain ⟨hbefore, hop⟩ := (History.proper_concat h op).mp hproper
    rw [History.table_concat]
    exact (ih hbefore).concat hop

end MiniPascal
