import MiniPascal.Proofs.Descent.Rule
import MiniPascal.Proofs.Scope.Shows

/-!
# The blocks that a descent asks for

- A descent has `Proper` tables only: every block lies in an older one, and the open compound blocks lie inside the
  other open ones. Each operation leads from one to another.
- On a proper table the walk to the outermost block finds all blocks and ends in time (`blocksFrom_apply`), so what the
  rules ask about the blocks is what the table answers (`find_apply`, `compoundDepth_apply`, `inCompound_apply`), and
  what they do to the blocks is what its operations do (`openInner_apply`, `closeBlock_apply`, `declare_apply`).
-/

namespace MiniPascal.Descent

variable {t u : ScopeTable} {program : List Lexeme} {p : Spot} {id : Nat}

/-! ## Proper tables -/

/-- A table that shows its frames, those of the compound blocks on top of the others. -/
structure Proper (t : ScopeTable) : Prop where
  shows : t.Shows t.frames
  compoundOnTop : t.frames.Pairwise fun inner outer => outer.compound = true → inner.compound = true

namespace Proper

theorem sound (h : Proper t) : t.Sound := h.shows.sound

theorem of_shows {frames : List Frame} (h : t.Shows frames)
    (hp : frames.Pairwise fun inner outer => outer.compound = true → inner.compound = true) : Proper t := by
  obtain rfl := h.frames_eq
  exact ⟨h, hp⟩

/-- Outside compound blocks none is open. -/
theorem compound_of_not_inCompound (h : Proper t) (hin : t.inCompound = false) :
    ∀ f ∈ t.frames, f.compound = false := by
  have hpairs := h.compoundOnTop
  rw [h.shows.inCompound] at hin
  cases hframes : t.frames with
  | nil => simp
  | cons top rest =>
    rw [hframes] at hin hpairs
    have htop : top.compound = false := hin
    rintro f (_ | ⟨_, hf⟩)
    · exact htop
    · have hle := (List.pairwise_cons.mp hpairs).1 f hf
      simpa [htop] using hle

/-- Outside compound blocks there is room for a statement under few bodies and branches. -/
theorem hasRoom_of_not_inCompound (h : Proper t) (hin : t.inCompound = false) {depth : Nat} (hd : depth ≤ maxNesting) :
    t.hasRoom depth = true := by
  rw [h.shows.hasRoom_iff]
  have hnone : compoundsIn t.frames = 0 := List.countP_eq_zero.mpr fun f hf => by
    simp [h.compound_of_not_inCompound hin f hf]
  omega

theorem empty : Proper .empty :=
  .of_shows ScopeTable.shows_empty .nil

theorem openOutermost (h : Proper t) (kind : BlockKind) : Proper (t.openBlock kind ScopeTable.global) :=
  .of_shows (h.shows.openOutermost kind) (List.pairwise_singleton _ _)

theorem openCompound (h : Proper t) (number : Nat) : Proper (t.openInner (.compound number)) :=
  .of_shows (h.shows.openInner _) (h.compoundOnTop.cons fun _ _ _ => rfl)

/-- A block that is no compound one can only be opened outside compound blocks. -/
theorem openInner (h : Proper t) (kind : BlockKind) (hin : t.inCompound = false) : Proper (t.openInner kind) :=
  .of_shows (h.shows.openInner _) (h.compoundOnTop.cons fun f hf hc => by
    rw [h.compound_of_not_inCompound hin f hf] at hc
    cases hc)

theorem closeBlock (h : Proper t) : Proper t.closeBlock :=
  .of_shows h.shows.closeBlock h.compoundOnTop.tail

/-- A declaration adds to the frame on top and opens none. -/
theorem declare (h : Proper t) {name : String} {type : DataType} (hc : t.current? = some id) (hn : isIdentifier name)
    (hd : t.declare id name type = .ok u) : Proper u ∧ shape u.frames = shape t.frames := by
  obtain ⟨f, rest, hf⟩ := h.shows.exists_cons hc
  have hs : t.Shows (f :: rest) := hf ▸ h.shows
  have hu := hs.declare hc hn hd
  have hp := h.compoundOnTop
  rw [hf, List.pairwise_cons] at hp
  rw [hu.frames_eq, hf]
  exact ⟨.of_shows hu (hp.2.cons hp.1), rfl⟩

end Proper

/-- Whether there is room depends on the shape of the open blocks alone. -/
theorem hasRoom_congr (ht : Proper t) (hu : Proper u) (h : shape u.frames = shape t.frames) (depth : Nat) :
    u.hasRoom depth = t.hasRoom depth := by
  rw [Bool.eq_iff_iff, ht.shows.hasRoom_iff, hu.shows.hasRoom_iff, compoundsIn_congr h]

/-! ## Walks -/

/-- A block that the table holds is found. -/
theorem block_apply {b : Block} (h : p.scope.blocks[id]? = some b) : block id program p = .done b p := by
  rw [block, h, Option.elim_some]

/-- A walk finds the blocks of the path and ends in time. -/
theorem blocksFrom_apply (h : p.scope.Sound) {laps : Nat} (hlaps : id < laps) (hid : id < p.scope.blocks.size) :
    ∃ found, blocksFrom laps id program p = .done found p ∧
      found.map some = (p.scope.path id).map (p.scope.blocks[·]?) := by
  induction laps generalizing id with
  | zero => exact absurd hlaps (Nat.not_lt_zero _)
  | succ laps ih =>
    have hb : p.scope.blocks[id]? = some p.scope.blocks[id] := Array.getElem?_eq_getElem hid
    have hparent : p.scope.parent? id = p.scope.blocks[id].parent? := by rw [ScopeTable.parent?, hb, Option.bind_some]
    cases ha : p.scope.blocks[id].parent? with
    | none =>
      refine ⟨[p.scope.blocks[id]], by simp [blocksFrom, block_apply hb, ha], ?_⟩
      rw [ScopeTable.path_of_parent_none (hparent.trans ha)]
      simp [hb]
    | some around =>
      rw [ha] at hparent
      -- only the global block lies in none, so the block around this one is older
      have hpos : 0 < id := by
        refine Nat.pos_of_ne_zero fun h0 => ?_
        rw [h0, ScopeTable.parent?, show p.scope.blocks[0]? = _ from h.bare] at hparent
        cases hparent
      obtain ⟨older, holder, hlt⟩ := h.parent hpos hid
      obtain rfl : older = around := Option.some.inj (holder.symm.trans hparent)
      obtain ⟨found, hfound, hpath⟩ := ih (by omega) (Nat.lt_trans hlt hid)
      refine ⟨p.scope.blocks[id] :: found, by simp [blocksFrom, block_apply hb, ha, hfound], ?_⟩
      rw [ScopeTable.path_of_parent hparent hlt, List.map_cons, List.map_cons, hpath, hb]

theorem openBlocks_apply (program : List Lexeme) (h : p.scope.Sound) :
    ∃ found, openBlocks program p = .done found p ∧
      found.map some = p.scope.current?.elim [] fun id => (p.scope.path id).map (p.scope.blocks[·]?) := by
  cases hc : p.scope.current? with
  | none => exact ⟨[], by simp [openBlocks, hc], rfl⟩
  | some id =>
    have hid := (h.current hc).2
    simpa [openBlocks, hc] using blocksFrom_apply h hid hid

/-! ## Questions -/

/-- The rule finds the type of a name that the table gives to it. -/
theorem find_apply (h : p.scope.Sound) (name : String) : find name program p = .done (p.scope.find? name) p := by
  obtain ⟨found, hfound, hpath⟩ := openBlocks_apply program h
  have hmap : (found.map some).findSome? (·.bind (·.lookup? name)) = found.findSome? (·.lookup? name) := by
    rw [List.findSome?_map]
    rfl
  simp only [find, Rule.bind_apply, hfound, Rule.pure_apply]
  rw [← hmap, hpath, ScopeTable.find?]
  cases p.scope.current? with
  | none => rfl
  | some id =>
    rw [Option.elim_some, List.findSome?_map]
    rfl

/-- The rule counts the compound blocks that the table counts. -/
theorem compoundDepth_apply (h : p.scope.Sound) : compoundDepth program p = .done p.scope.openCompounds p := by
  obtain ⟨found, hfound, hpath⟩ := openBlocks_apply program h
  have hmap : (found.map some).countP (fun b? => (b?.elim .global (·.kind)).isCompound) =
      found.countP (·.kind.isCompound) := by
    rw [List.countP_map]
    rfl
  simp only [compoundDepth, Rule.bind_apply, hfound, Rule.pure_apply]
  rw [← hmap, hpath, ScopeTable.openCompounds]
  cases p.scope.current? with
  | none => rfl
  | some id =>
    rw [Option.elim_some, List.countP_map]
    rfl

/-- The rule sees the kind of the current block. -/
theorem inCompound_apply (h : p.scope.Sound) : inCompound program p = .done p.scope.inCompound p := by
  cases hc : p.scope.current? with
  | none => simp [inCompound, ScopeTable.inCompound, ScopeTable.currentKind, hc]
  | some id =>
    have hb : p.scope.blocks[id]? = _ := Array.getElem?_eq_getElem (h.current hc).2
    simp [inCompound, block_apply hb, ScopeTable.inCompound, ScopeTable.currentKind, ScopeTable.kindOf, hc, hb]

/-! ## Operations -/

theorem openBlock_apply {around : Nat} (kind : BlockKind) (h : around < p.scope.blocks.size) :
    openBlock kind around program p = .done () ⟨p.cursor, p.scope.openBlock kind around⟩ := by
  simp [openBlock, block_apply (Array.getElem?_eq_getElem h)]

theorem openInner_apply (kind : BlockKind) (h : p.scope.Sound) :
    openInner kind program p = .done () ⟨p.cursor, p.scope.openInner kind⟩ :=
  openBlock_apply kind h.current_getD_lt

theorem closeBlock_apply (h : p.scope.Sound) : closeBlock program p = .done () ⟨p.cursor, p.scope.closeBlock⟩ := by
  cases hc : p.scope.current? with
  | none =>
    have hsame : p.scope.closeBlock = p.scope := by
      simp only [ScopeTable.closeBlock, hc, Option.bind_none, Option.filter_none]
      rw [← hc]
    simp [closeBlock, hc, hsame]
  | some id =>
    have hb : p.scope.blocks[id]? = _ := Array.getElem?_eq_getElem (h.current hc).2
    simp [closeBlock, block_apply hb, ScopeTable.closeBlock, ScopeTable.parent?, hc, hb]

/-- The rule halts where the table says that the block has the name already, and declares it otherwise. -/
theorem declare_apply (hid : id < p.scope.blocks.size) (name : String) (type : DataType) :
    declare id name type program p =
      match p.scope.declare id name type with
      | .ok u => .done () ⟨p.cursor, u⟩
      | .error _ => .halt ⟨.alreadyDeclared, p.cursor⟩ p.scope := by
  have hb : p.scope.blocks[id]? = _ := Array.getElem?_eq_getElem hid
  have hlookup : p.scope.lookup? id name = p.scope.blocks[id].lookup? name := by
    rw [ScopeTable.lookup?, hb, Option.bind_some]
  cases hfree : p.scope.blocks[id].lookup? name <;>
    simp [declare, block_apply hb, ScopeTable.declare, hlookup, hfree]

end MiniPascal.Descent
