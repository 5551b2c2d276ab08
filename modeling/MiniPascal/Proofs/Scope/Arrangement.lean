import MiniPascal.Proofs.Scope.History

/-!
# How the blocks of a table are arranged

Blocks may be opened in any block, an open one or not, and the caller may pass any number for a compound one. Still the
links from a block to the one around it lead to older blocks and end at the global block, compound blocks are numbered
in the order in which they were opened, and the current block is found on the way from the block opened last.

* `ScopeTable.Walk`: the links from a block up, followed to a block that lies in none. `Walk.path_eq` and `exists_walk`
  say that where links lead to older blocks every walk ends, and that it is the path of the block.
* `Counted`: what a table says about kinds agrees with a history; `Counted.concat` is the step, `counted_table` the run.
* `ScopeTable.Returns`: the current block lies around the last one; `Returns.apply` is the step, `returns_table` the run.
* `History.arranges_table`: all of this about the table behind any history.
-/

namespace MiniPascal

/-- The number of a compound block. -/
def BlockKind.number? : BlockKind → Option Nat
  | compound number => some number
  | _ => none

/-- The kind of block that an operation opens. -/
def Operation.kind? : Operation → Option BlockKind
  | openBlock kind _ => some kind
  | _ => none

/-- The kinds of the blocks that were opened, with the numbers that were passed, in the order of opening. -/
def History.kinds (h : History) : List BlockKind :=
  h.filterMap (·.kind?)

@[simp]
theorem History.kinds_concat (h : History) (op : Operation) :
    History.kinds (h ++ [op]) = h.kinds ++ op.kind?.toList := by
  cases hop : op.kind? <;> simp [kinds, hop]

/-! ## Walking up -/

namespace ScopeTable

variable {t u : ScopeTable} {b c p : Nat} {path : List Nat}

/-- The links from a block to the one around it, followed until a block lies in none. -/
inductive Walk (t : ScopeTable) : Nat → List Nat → Prop
  | last {b : Nat} (hlast : t.parent? b = none) : Walk t b [b]
  | next {b p : Nat} {path : List Nat} (hparent : t.parent? b = some p) (rest : Walk t p path) : Walk t b (b :: path)

/-- Every block lies in an older one. -/
def Older (t : ScopeTable) : Prop :=
  ∀ b p, t.parent? b = some p → p < b

theorem exists_walk (hold : t.Older) (b : Nat) : t.Walk b (t.path b) := by
  fun_induction path t b with
  | case1 b p hparent _ ih => exact .next hparent ih
  | case2 b p hparent hp => exact absurd (hold b p hparent) hp
  | case3 b hlast => exact .last hlast

theorem Walk.path_eq (hwalk : t.Walk b path) (hold : t.Older) : t.path b = path := by
  induction hwalk with
  | last hlast => exact path_of_parent_none hlast
  | next hparent _ ih => rw [path_of_parent hparent (hold _ _ hparent), ih]

/-- The block around a block on a path lies on it too. -/
theorem mem_path_of_parent? (hold : t.Older) (hc : c ∈ t.path b) (hp : t.parent? c = some p) : p ∈ t.path b := by
  fun_induction path t b with
  | case1 b q hparent _ ih =>
    rcases List.mem_cons.mp hc with rfl | hc
    · obtain rfl : q = p := Option.some.inj (hparent.symm.trans hp)
      exact List.mem_cons_of_mem _ mem_path_self
    · exact List.mem_cons_of_mem _ (ih hc)
  | case2 b q hparent hq => exact absurd (hold b q hparent) hq
  | case3 b hlast =>
    obtain rfl := List.mem_singleton.mp hc
    rw [hlast] at hp
    cases hp

/-! ## The current block -/

/-- The current block is not the global one, and it is the block opened last or lies around it. -/
def Returns (t : ScopeTable) : Prop :=
  ∀ c, t.current? = some c → c ≠ global ∧ c ∈ t.path (t.blocks.size - 1)

theorem returns_empty : empty.Returns :=
  nofun

theorem Returns.openBlock (hsize : 0 < t.blocks.size) (kind : BlockKind) (p : Nat) : (t.openBlock kind p).Returns := by
  intro c hc
  obtain rfl : t.blocks.size = c := by simpa using hc
  exact ⟨Nat.ne_of_gt hsize, by simp⟩

/-- Leaving a block leads further up the same path. -/
theorem Returns.closeBlock (h : t.Returns) (hold : t.Older) : t.closeBlock.Returns := by
  intro c hc
  obtain ⟨hne, b, hb, hparent⟩ := current?_closeBlock_eq_some_iff.mp hc
  refine ⟨hne, ?_⟩
  rw [path_closeBlock]
  exact mem_path_of_parent? hold (h b hb).2 hparent

theorem Returns.declare {name : String} {type : DataType} (h : t.Returns) (hd : t.declare b name type = .ok u) :
    u.Returns := by
  intro c hc
  rw [current?_of_declare hd] at hc
  rw [size_of_declare hd, path_of_declare hd]
  exact h c hc

theorem Returns.apply (h : t.Returns) (hold : t.Older) (hsize : 0 < t.blocks.size) (op : Operation) :
    (op.apply t).Returns := by
  cases op with
  | openBlock kind p => exact .openBlock hsize kind p
  | closeBlock => exact h.closeBlock hold
  | declare b name type =>
    rcases Operation.apply_declare_cases t b name type with hd | ⟨hsame, _⟩
    · exact h.declare hd
    · rw [hsame]
      exact h

end ScopeTable

/-! ## The kinds of the blocks -/

/-- The kinds of the blocks of a table, in the order of opening. -/
def ScopeTable.kinds (t : ScopeTable) : List BlockKind :=
  t.blocks.toList.map (·.kind)

@[simp]
theorem ScopeTable.kinds_openBlock (t : ScopeTable) (kind : BlockKind) (p : Nat) :
    (t.openBlock kind p).kinds =
      t.kinds ++ [if kind.isCompound then .compound (t.compounds + 1) else kind] := by
  cases kind <;> simp [kinds, openBlock]

theorem ScopeTable.kinds_of_declare {t u : ScopeTable} {b : Nat} {name : String} {type : DataType}
    (hd : t.declare b name type = .ok u) : u.kinds = t.kinds := by
  refine List.ext_getElem? fun i => ?_
  simp only [kinds, List.getElem?_map, Array.getElem?_toList, getElem?_of_declare hd]
  split
  case isTrue => cases t.blocks[i]? <;> rfl
  case isFalse => rfl

/-- A table agrees with a history about kinds: the blocks opened as compound ones are compound, and they are numbered in
the order of opening. -/
structure Counted (h : History) (t : ScopeTable) : Prop where
  compounds : t.compounds = h.kinds.countP (·.isCompound)
  isCompound : t.kinds.map (·.isCompound) = false :: h.kinds.map (·.isCompound)
  numbers : t.kinds.filterMap (·.number?) = List.range' 1 t.compounds

namespace Counted

variable {h : History} {t u : ScopeTable}

theorem empty : Counted [] .empty where
  compounds := rfl
  isCompound := rfl
  numbers := rfl

/-- A block of another kind keeps the kind that was passed. -/
theorem openPlain (hc : Counted h t) {kind : BlockKind} (hk : kind.isCompound = false) (p : Nat) :
    Counted (h ++ [.openBlock kind p]) (t.openBlock kind p) := by
  have hkinds : History.kinds (h ++ [.openBlock kind p]) = h.kinds ++ [kind] := by simp [Operation.kind?]
  have hblocks : (t.openBlock kind p).kinds = t.kinds ++ [kind] := by simp [hk]
  have hcompounds : (t.openBlock kind p).compounds = t.compounds := by simp [hk]
  have hnumber : kind.number? = none := by cases kind <;> first | rfl | cases hk
  exact
    { compounds := by rw [hcompounds, hkinds, hc.compounds]; simp [hk]
      isCompound := by
        rw [hblocks, hkinds, List.map_append, hc.isCompound, List.map_append]
        rfl
      numbers := by rw [hblocks, hcompounds]; simp [hc.numbers, hnumber] }

/-- A compound block gets the next number, whatever number was passed. -/
theorem openCompound (hc : Counted h t) (number p : Nat) :
    Counted (h ++ [.openBlock (.compound number) p]) (t.openBlock (.compound number) p) := by
  have hkinds : History.kinds (h ++ [.openBlock (.compound number) p]) = h.kinds ++ [.compound number] := by
    simp [Operation.kind?]
  have hblocks : (t.openBlock (.compound number) p).kinds = t.kinds ++ [.compound (t.compounds + 1)] := by simp
  have hcompounds : (t.openBlock (.compound number) p).compounds = t.compounds + 1 := rfl
  exact
    { compounds := by rw [hcompounds, hkinds, hc.compounds]; simp
      isCompound := by
        rw [hblocks, hkinds, List.map_append, hc.isCompound, List.map_append]
        rfl
      numbers := by
        rw [hblocks, hcompounds, List.range'_concat, ← hc.numbers]
        simp [BlockKind.number?, Nat.add_comm] }

/-- What opens no block leaves all kinds as they are. -/
theorem still (hc : Counted h t) {op : Operation} (hop : op.kind? = none) (hkinds : u.kinds = t.kinds)
    (hcompounds : u.compounds = t.compounds) : Counted (h ++ [op]) u := by
  have hopened : History.kinds (h ++ [op]) = h.kinds := by simp [hop]
  exact
    { compounds := by rw [hcompounds, hopened, hc.compounds]
      isCompound := by rw [hkinds, hopened, hc.isCompound]
      numbers := by rw [hkinds, hcompounds, hc.numbers] }

theorem concat (hc : Counted h t) (op : Operation) : Counted (h ++ [op]) (op.apply t) := by
  cases op with
  | openBlock kind p =>
    cases kind with
    | compound number => exact hc.openCompound number p
    | global | program | body => exact hc.openPlain rfl p
  | closeBlock => exact hc.still rfl rfl rfl
  | declare b name type =>
    rcases Operation.apply_declare_cases t b name type with hd | ⟨hsame, _⟩
    · exact hc.still rfl (ScopeTable.kinds_of_declare hd) (ScopeTable.compounds_of_declare hd)
    · rw [hsame]
      exact hc.still rfl rfl rfl

end Counted

/-! ## The table behind a history -/

theorem counted_table (h : History) : Counted h h.table := by
  induction h using List.reverseRecOn with
  | nil => exact .empty
  | append_singleton h op ih =>
    rw [History.table_concat]
    exact ih.concat op

theorem Records.older {h : History} {t : ScopeTable} (hr : Records h t) : t.Older :=
  fun b _ hp => hr.parent_lt ((hr.parent b).symm.trans hp)

/-- The global block is no compound one. -/
theorem Counted.compoundDepth_global {h : History} {t : ScopeTable} (hc : Counted h t)
    (hroot : t.parent? ScopeTable.global = none) : t.compoundDepth ScopeTable.global = 0 := by
  have hfirst : (t.kinds.map (·.isCompound))[ScopeTable.global]? = some false := by
    rw [hc.isCompound]
    rfl
  rw [ScopeTable.kinds, List.map_map, List.getElem?_map, Array.getElem?_toList] at hfirst
  obtain ⟨block, hblock, hkind⟩ := Option.map_eq_some_iff.mp hfirst
  have hplain : (t.kindOf ScopeTable.global).isCompound = false := by
    rw [ScopeTable.kindOf, hblock]
    exact hkind
  rw [ScopeTable.compoundDepth, ScopeTable.path_of_parent_none hroot, List.countP_singleton, hplain]
  rfl

theorem Records.parent?_eq_none_iff {h : History} {t : ScopeTable} (hr : Records h t) {b : Nat}
    (hb : b < t.blocks.size) : t.parent? b = none ↔ b = ScopeTable.global := by
  rw [hr.parent]
  cases b with
  | zero => exact ⟨fun _ => rfl, fun _ => rfl⟩
  | succ b =>
    rw [hr.size, History.blockCount] at hb
    have hopened : b < h.parents.length := by omega
    rw [History.parent?, List.getElem?_eq_getElem hopened]
    exact iff_of_false (Option.some_ne_none _) (Nat.succ_ne_zero b)

theorem Records.size_pos {h : History} {t : ScopeTable} (hr : Records h t) : 0 < t.blocks.size :=
  hr.size ▸ Nat.succ_pos _

theorem returns_table {h : History} (hproper : h.Proper) : h.table.Returns := by
  induction h using List.reverseRecOn with
  | nil => exact ScopeTable.returns_empty
  | append_singleton h op ih =>
    have hbefore := ((History.proper_concat h op).mp hproper).1
    have hr := records_table hbefore
    rw [History.table_concat]
    exact (ih hbefore).apply hr.older hr.size_pos op

/-- What a history makes of the blocks of the table behind it. -/
structure History.Arranges (h : History) (t : ScopeTable) : Prop where
  /-- The global block alone lies in no block. -/
  root {b : Nat} (hb : b < t.blocks.size) : t.parent? b = none ↔ b = ScopeTable.global
  older {b p : Nat} (hp : t.parent? b = some p) : p < b
  /-- From every block the walk up comes to an end, and it is all that the questions about a block go through. -/
  walk {b : Nat} (hb : b < t.blocks.size) : ∃ path, t.Walk b path
  resolve {b : Nat} {path : List Nat} (hwalk : t.Walk b path) (name : String) :
    t.resolve? b name = path.findSome? (t.lookup? · name)
  compoundDepth {b : Nat} {path : List Nat} (hwalk : t.Walk b path) :
    t.compoundDepth b = path.countP fun a => (t.kindOf a).isCompound
  /-- The blocks opened as compound ones are numbered from one on, whatever numbers were passed. -/
  isCompound : t.kinds.map (·.isCompound) = false :: h.kinds.map (·.isCompound)
  numbers : t.kinds.filterMap (·.number?) = List.range' 1 (h.kinds.countP (·.isCompound))
  /-- The current block is not the global one, and it is the block opened last or lies around it. -/
  current {c : Nat} (hc : t.current? = some c) :
    c ≠ ScopeTable.global ∧ c < t.blocks.size ∧ ∃ path, t.Walk (t.blocks.size - 1) path ∧ c ∈ path
  /-- A compound block lies one deeper than the block around it, any other block as deep. -/
  depth_global : t.compoundDepth ScopeTable.global = 0
  depth_inner {b p : Nat} (hp : t.parent? b = some p) :
    t.compoundDepth b = t.compoundDepth p + if (t.kindOf b).isCompound then 1 else 0

/-- Whatever is opened in existing blocks, closed and declared, the blocks form a tree under the global one, the compound
blocks are numbered in the order of opening, and the current block is found on the way up from the last one. -/
theorem History.arranges_table {h : History} (hproper : h.Proper) : h.Arranges h.table :=
  have hr := records_table hproper
  have hc := counted_table h
  { root := hr.parent?_eq_none_iff
    older := hr.older _ _
    walk := fun _ => ⟨_, ScopeTable.exists_walk hr.older _⟩
    resolve := fun hwalk name => by rw [ScopeTable.resolve?, hwalk.path_eq hr.older]
    compoundDepth := fun hwalk => by rw [ScopeTable.compoundDepth, hwalk.path_eq hr.older]
    isCompound := hc.isCompound
    numbers := hc.compounds ▸ hc.numbers
    current := by
      intro c hcurrent
      obtain ⟨hne, hpath⟩ := returns_table hproper c hcurrent
      have hle := ScopeTable.le_of_mem_path hpath
      have hpos := hr.size_pos
      exact ⟨hne, by omega, _, ScopeTable.exists_walk hr.older _, hpath⟩
    depth_global := hc.compoundDepth_global (hr.parent ScopeTable.global)
    depth_inner := fun hp => ScopeTable.compoundDepth_of_parent hp (hr.older _ _ hp) }

/-- Blocks are opened in open blocks, in closed ones and in the global one, three of them as compound ones with the same
number, and the current block is left once more than there are blocks to leave. -/
def scattered : History :=
  [.openBlock .program 0, .openBlock (.compound 7) 1, .closeBlock, .closeBlock, .closeBlock, .openBlock (.compound 7) 2,
    .openBlock .global 0, .openBlock (.compound 7) 3, .declare 2 "x" .int, .declare 2 "x" .bool, .closeBlock]

theorem arranges_table_scattered :
    scattered.Arranges scattered.table ∧
    scattered.table.kinds = [.global, .program, .compound 1, .compound 2, .global, .compound 3] ∧
    scattered.table.current? = some 3 ∧ scattered.table.parent? 4 = some 0 ∧
    scattered.table.Walk 5 [5, 3, 2, 1, 0] ∧ scattered.table.compoundDepth 5 = 3 := by
  have h := History.arranges_table (h := scattered) (by decide)
  have hwalk : scattered.table.Walk 5 [5, 3, 2, 1, 0] :=
    .next rfl (.next rfl (.next rfl (.next rfl (.last rfl))))
  exact ⟨h, by decide, by decide, by decide, hwalk, h.compoundDepth hwalk⟩

end MiniPascal
