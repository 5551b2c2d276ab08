import MiniPascal.Proofs.Scope.Arrangement
import MiniPascal.Proofs.Scope.Growth

/-!
# Entering and leaving blocks

The current block is one field and no stack, and blocks are never taken out of a table. Still operations that are
properly nested lead back: a block that is opened in the current one and left again has kept the link to it.

* `ScopeTable.after`: the table behind operations; every table before is grown into it (`grows_after`).
* `Nested`: operations that leave exactly the blocks that they enter and declare variables in none but new blocks.
* `Nested.blocks`: the older blocks stay as they are. `Nested.current`: the current block is restored.
* `History.restores_of_nested`: what was seen from the older blocks before is seen afterwards.
-/

namespace MiniPascal

namespace ScopeTable

variable {t u : ScopeTable} {op : Operation} {ops : List Operation} {b : Nat}

/-! ## Operations one after the other -/

/-- The table behind operations. -/
def after (t : ScopeTable) (ops : List Operation) : ScopeTable :=
  ops.foldl Operation.apply t

@[simp]
theorem after_cons : t.after (op :: ops) = (op.apply t).after ops := rfl

@[simp]
theorem after_append (before behind : List Operation) : t.after (before ++ behind) = (t.after before).after behind :=
  List.foldl_append

/-- A block is entered, something is done, the block is left, and something more is done. -/
theorem after_block (kind : BlockKind) (inner behind : List Operation) :
    t.after (.openBlock kind (t.current?.getD global) :: inner ++ .closeBlock :: behind) =
      ((t.openInner kind).after inner).closeBlock.after behind := by
  simp only [List.cons_append, after_cons, after_append]
  rfl

theorem grows_apply (op : Operation) (t : ScopeTable) : t.Grows (op.apply t) := by
  cases op with
  | openBlock kind p => exact grows_openBlock t kind p
  | closeBlock => exact grows_closeBlock t
  | declare b name type =>
    rcases Operation.apply_declare_cases t b name type with hd | ⟨hsame, _⟩
    · exact grows_of_declare hd
    · rw [hsame]
      exact .refl t

theorem grows_after (ops : List Operation) (t : ScopeTable) : t.Grows (t.after ops) := by
  induction ops generalizing t with
  | nil => exact .refl t
  | cons op ops ih => exact (grows_apply op t).trans (ih _)

theorem size_after (ops : List Operation) (t : ScopeTable) :
    (t.after ops).blocks.size = t.blocks.size + (History.parents ops).length := by
  induction ops generalizing t with
  | nil => rfl
  | cons op ops ih => simp [ih, Nat.add_assoc]

theorem size_le_after (ops : List Operation) (t : ScopeTable) : t.blocks.size ≤ (t.after ops).blocks.size := by
  rw [size_after]
  exact Nat.le_add_right _ _

/-- A block keeps the link to the one around it. -/
theorem Grows.parent? {p : Nat} (h : t.Grows u) (hp : t.parent? b = some p) : u.parent? b = some p := by
  obtain ⟨block, hblock, hparent⟩ := Option.bind_eq_some_iff.mp hp
  obtain ⟨block', hblock', hgrows⟩ := h b block hblock
  rw [ScopeTable.parent?, hblock', Option.bind_some, hgrows.parent, hparent]

/-- Whatever is done in between, leaving a block leads back to where it was entered, for it has kept its link. -/
theorem current?_left {kind : BlockKind} (hcurrent : t.current? ≠ some global)
    (hinside : ((t.openInner kind).after ops).current? = some t.blocks.size) :
    ((t.openInner kind).after ops).closeBlock.current? = t.current? := by
  have hkept := (grows_after ops (t.openInner kind)).parent? (parent?_openInner_new kind)
  rw [closeBlock, hinside, Option.bind_some, hkept]
  cases hc : t.current? with
  | none => rfl
  | some c =>
    have hne : c ≠ global := fun heq => hcurrent (heq ▸ hc)
    simp [hne]

/-! ## What is seen from a block -/

section Seen

variable (h : ∀ c ≤ b, u.blocks[c]? = t.blocks[c]?)
include h

theorem path_eq_of_blocks : u.path b = t.path b :=
  path_congr fun c hc => by rw [parent?, h c hc, parent?]

theorem resolve?_eq_of_blocks (name : String) : u.resolve? b name = t.resolve? b name := by
  refine resolve?_congr (path_eq_of_blocks h) fun c hc => ?_
  rw [lookup?, h c (le_of_mem_path hc), lookup?]

theorem compoundDepth_eq_of_blocks : u.compoundDepth b = t.compoundDepth b := by
  rw [compoundDepth, compoundDepth, path_eq_of_blocks h]
  refine List.countP_congr fun c hc => ?_
  rw [kindOf, h c (le_of_mem_path hc), kindOf]

end Seen

end ScopeTable

/-! ## Nested operations -/

/-- Operations that enter blocks from a table and leave them again, each opened in the block that is current then, or in
the global one if none is, and in between declare variables in blocks that are not among the `oldest` first ones. -/
inductive Nested (oldest : Nat) : ScopeTable → List Operation → Prop
  | nothing {t : ScopeTable} : Nested oldest t []
  | declare {t : ScopeTable} {block : Nat} {name : String} {type : DataType} {ops : List Operation}
      (hnew : oldest ≤ block) (hopened : block < t.blocks.size)
      (rest : Nested oldest ((Operation.declare block name type).apply t) ops) :
      Nested oldest t (.declare block name type :: ops)
  | block {t : ScopeTable} {kind : BlockKind} {inner behind : List Operation}
      (inside : Nested oldest (t.openInner kind) inner)
      (rest : Nested oldest ((t.openInner kind).after inner).closeBlock behind) :
      Nested oldest t (.openBlock kind (t.current?.getD ScopeTable.global) :: inner ++ .closeBlock :: behind)

namespace Nested

variable {oldest : Nat} {t : ScopeTable} {ops : List Operation} {b : Nat}

/-- Nothing happens to the older blocks. -/
theorem blocks (hnested : Nested oldest t ops) (hold : oldest ≤ t.blocks.size) (hb : b < oldest) :
    (t.after ops).blocks[b]? = t.blocks[b]? := by
  induction hnested with
  | nothing => rfl
  | @declare t block name type ops hnew _ _ ih =>
    rw [ScopeTable.after_cons, ih (by rw [Operation.size_apply]; omega)]
    rcases Operation.apply_declare_cases t block name type with hd | ⟨hsame, _⟩
    · rw [ScopeTable.getElem?_of_declare hd, if_neg (by omega)]
    · rw [hsame]
  | @block t kind inner behind _ _ ihInner ihBehind =>
    have hgrown := ScopeTable.size_le_after inner (t.openInner kind)
    rw [ScopeTable.size_openInner] at hgrown
    rw [ScopeTable.after_block]
    calc (((t.openInner kind).after inner).closeBlock.after behind).blocks[b]?
      _ = ((t.openInner kind).after inner).blocks[b]? := ihBehind (by simp only [ScopeTable.blocks_closeBlock]; omega)
      _ = (t.openInner kind).blocks[b]? := ihInner (by simp only [ScopeTable.size_openInner]; omega)
      _ = t.blocks[b]? := ScopeTable.blocks_openInner kind (by omega)

/-- The block that was current is current again. A current block is never the global one, so what is left for it is
told from leaving the outermost block. -/
theorem current (hnested : Nested oldest t ops) (hsize : 0 < t.blocks.size)
    (hcurrent : t.current? ≠ some ScopeTable.global) : (t.after ops).current? = t.current? := by
  induction hnested with
  | nothing => rfl
  | @declare t block name type ops _ _ _ ih =>
    have hsame : ((Operation.declare block name type).apply t).current? = t.current? := by
      rcases Operation.apply_declare_cases t block name type with hd | ⟨hsame, _⟩
      · exact ScopeTable.current?_of_declare hd
      · rw [hsame]
    rw [ScopeTable.after_cons, ih (by rw [Operation.size_apply]; omega) (hsame ▸ hcurrent), hsame]
  | @block t kind inner behind _ _ ihInner ihBehind =>
    have hinside : ((t.openInner kind).after inner).current? = some t.blocks.size :=
      ihInner (by simp) fun hglobal =>
        absurd (Option.some.inj hglobal) (Nat.ne_of_gt hsize)
    have hleft := ScopeTable.current?_left hcurrent hinside
    have hgrown := ScopeTable.size_le_after inner (t.openInner kind)
    rw [ScopeTable.size_openInner] at hgrown
    rw [ScopeTable.after_block]
    calc (((t.openInner kind).after inner).closeBlock.after behind).current?
      _ = ((t.openInner kind).after inner).closeBlock.current? :=
        ihBehind (by simp only [ScopeTable.blocks_closeBlock]; omega) (hleft ▸ hcurrent)
      _ = t.current? := hleft

end Nested

/-- What operations leave of a table: it is as it was when seen from its own blocks, and what was opened since is found
behind them. -/
structure Restores (t : ScopeTable) (ops : List Operation) : Prop where
  current : (t.after ops).current? = t.current?
  /-- A block keeps its kind, the block around it and its variables. -/
  blocks {b : Nat} (hb : b < t.blocks.size) : (t.after ops).blocks[b]? = t.blocks[b]?
  compoundDepth {b : Nat} (hb : b < t.blocks.size) : (t.after ops).compoundDepth b = t.compoundDepth b
  resolve {b : Nat} (hb : b < t.blocks.size) (name : String) : (t.after ops).resolve? b name = t.resolve? b name
  /-- Every block opened since, in the place behind all that were there by then, stays in it. -/
  size : (t.after ops).blocks.size = t.blocks.size + (History.parents ops).length
  grows (n : Nat) : (t.after (ops.take n)).Grows (t.after ops)

/-- Entering and leaving blocks, with declarations in them that succeed or fail, restores what was seen before. -/
theorem History.restores_of_nested {h : History} (hproper : h.Proper) {ops : List Operation}
    (hnested : Nested h.table.blocks.size h.table ops) : Restores h.table ops := by
  have hr := records_table hproper
  have hcurrent : h.table.current? ≠ some ScopeTable.global := fun hc => (returns_table hproper _ hc).1 rfl
  have hblocks : ∀ b < h.table.blocks.size, (h.table.after ops).blocks[b]? = h.table.blocks[b]? :=
    fun b => hnested.blocks (Nat.le_refl _)
  exact
    { current := hnested.current hr.size_pos hcurrent
      blocks := hblocks _
      compoundDepth := fun hb => ScopeTable.compoundDepth_eq_of_blocks fun c hc => hblocks c (by omega)
      resolve := fun hb => ScopeTable.resolve?_eq_of_blocks fun c hc => hblocks c (by omega)
      size := ScopeTable.size_after ops h.table
      grows := by
        intro n
        have hsplit : h.table.after ops = (h.table.after (ops.take n)).after (ops.drop n) := by
          rw [← ScopeTable.after_append, List.take_append_drop]
        rw [hsplit]
        exact ScopeTable.grows_after _ _ }

/-- A body with a variable, in which compound blocks are about to be entered. -/
def surrounded : History :=
  [.openBlock .program 0, .declare 1 "x" .int, .openBlock .body 1, .declare 2 "y" .float]

/-- Two blocks one in the other and one behind them. The names of the surroundings are hidden, one of them twice, and the
innermost block gets a variable more after it was left. -/
def excursion : List Operation :=
  [.openBlock (.compound 0) 2, .declare 3 "x" .bool, .openBlock (.compound 0) 3, .declare 4 "y" .int,
    .declare 4 "y" .bool, .closeBlock, .declare 4 "z" .int, .closeBlock, .openBlock .body 2, .declare 5 "y" .bool,
    .closeBlock]

theorem nested_excursion : Nested surrounded.table.blocks.size surrounded.table excursion := by
  refine @Nested.block _ _ (.compound 0) [.declare 3 "x" .bool, .openBlock (.compound 0) 3, .declare 4 "y" .int,
    .declare 4 "y" .bool, .closeBlock, .declare 4 "z" .int] [.openBlock .body 2, .declare 5 "y" .bool, .closeBlock]
    (.declare (by decide) (by decide) ?inner) ?behind
  case inner =>
    exact @Nested.block _ _ (.compound 0) [.declare 4 "y" .int, .declare 4 "y" .bool] [.declare 4 "z" .int]
      (.declare (by decide) (by decide) (.declare (by decide) (by decide) .nothing))
      (.declare (by decide) (by decide) .nothing)
  case behind =>
    exact @Nested.block _ _ .body [.declare 5 "y" .bool] [] (.declare (by decide) (by decide) .nothing) .nothing

theorem restores_of_excursion :
    surrounded.Proper ∧ Nested surrounded.table.blocks.size surrounded.table excursion ∧
    Restores surrounded.table excursion ∧ (surrounded.table.after excursion).current? = some 2 ∧
    (surrounded.table.after excursion).resolve? 2 "x" = some .int ∧
    (surrounded.table.after excursion).resolve? 4 "x" = some .bool ∧
    (surrounded.table.after excursion).blocks.size = 6 := by
  have hproper : surrounded.Proper := by decide
  have h := History.restores_of_nested hproper nested_excursion
  have hx : surrounded.table.resolve? 2 "x" = some .int := by decide +kernel
  have hx' : (surrounded.table.after excursion).resolve? 4 "x" = some .bool := by decide +kernel
  exact ⟨hproper, nested_excursion, h, h.current, (h.resolve (by decide) "x").trans hx, hx', h.size⟩

end MiniPascal
