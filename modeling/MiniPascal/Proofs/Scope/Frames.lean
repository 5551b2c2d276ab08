import Mathlib.Tactic.Simps.Basic
import MiniPascal.Scope.Lemmas

/-!
# Frames

What can be seen of a scope table from the current place is a stack of frames: the blocks around the place, the
innermost first, without the global block, which never holds a variable. On a sound table

- opening a block pushes a frame, closing one pops it, declaring adds to the frame on top (`frames_openInner`,
  `frames_closeBlock`, `frames_declare`);
- all questions about the current place are questions about the frames (`find?_eq`, `openCompounds_eq`,
  `inCompound_eq`).

`Sound` is what every operation keeps: blocks lie in older blocks, and the current one is not the global one.
-/

namespace MiniPascal

/-- An open block: whether a bracket opened it, and its variables in the order of declaration. -/
structure Frame where
  compound : Bool
  declared : List (String × DataType)
  deriving DecidableEq

/-- The frame with one more variable behind the others. -/
@[simps]
def Frame.add (f : Frame) (name : String) (type : DataType) : Frame :=
  { f with declared := f.declared ++ [(name, type)] }

/-- The type that the innermost frame with a name gives to it. -/
def typeIn? (frames : List Frame) (name : String) : Option DataType :=
  frames.findSome? (·.declared.lookup name)

/-- The number of frames opened by a bracket. -/
def compoundsIn (frames : List Frame) : Nat :=
  frames.countP (·.compound)

/-- Which of the frames were opened by a bracket. -/
def shape (frames : List Frame) : List Bool :=
  frames.map (·.compound)

section Shape

variable {f : Frame} {frames frames' : List Frame}

@[simp]
theorem typeIn?_nil (name : String) : typeIn? [] name = none := rfl

@[simp]
theorem typeIn?_cons (name : String) :
    typeIn? (f :: frames) name = (f.declared.lookup name).or (typeIn? frames name) := by
  rw [typeIn?, List.findSome?_cons]
  cases f.declared.lookup name <;> rfl

@[simp]
theorem compoundsIn_nil : compoundsIn [] = 0 := rfl

@[simp]
theorem compoundsIn_cons : compoundsIn (f :: frames) = compoundsIn frames + if f.compound then 1 else 0 :=
  List.countP_cons

/-- Leaving a block leaves no more brackets open. -/
theorem compoundsIn_tail_le : compoundsIn frames.tail ≤ compoundsIn frames :=
  (List.tail_sublist frames).countP_le

@[simp]
theorem shape_nil : shape [] = [] := rfl

@[simp]
theorem shape_cons : shape (f :: frames) = f.compound :: shape frames := rfl

@[simp]
theorem shape_tail : shape frames.tail = (shape frames).tail :=
  List.map_tail

theorem compoundsIn_congr (h : shape frames' = shape frames) : compoundsIn frames' = compoundsIn frames := by
  have hcount : ∀ frames : List Frame, compoundsIn frames = (shape frames).countP id := fun frames => by
    rw [shape, List.countP_map]
    rfl
  rw [hcount, hcount, h]

theorem inCompound_congr (h : shape frames' = shape frames) :
    frames'.head?.any (·.compound) = frames.head?.any (·.compound) := by
  have hhead : ∀ frames : List Frame, frames.head?.any (·.compound) = (shape frames).head?.any id := fun frames => by
    cases frames <;> rfl
  rw [hhead, hhead, h]

end Shape

namespace ScopeTable

variable {t u : ScopeTable} {id b : Nat}

/-! ## Sound tables -/

/-- The global block is bare, every other block lies in an older one, and the current block is one of the others. -/
structure Sound (t : ScopeTable) : Prop where
  bare : t.blocks[global]? = some ⟨.global, none, []⟩
  parent {id : Nat} (h0 : 0 < id) (h : id < t.blocks.size) : ∃ p, t.parent? id = some p ∧ p < id
  current {id : Nat} (h : t.current? = some id) : 0 < id ∧ id < t.blocks.size

theorem Sound.size_pos (h : t.Sound) : 0 < t.blocks.size :=
  (Array.getElem?_eq_some_iff.mp h.bare).1

theorem sound_empty : empty.Sound where
  bare := rfl
  parent h0 h := by simp [empty] at h; omega
  current h := by simp [empty] at h

/-- The block in which a new one is opened exists. -/
theorem Sound.current_getD_lt (h : t.Sound) : t.current?.getD global < t.blocks.size := by
  cases hc : t.current? with
  | none => exact h.size_pos
  | some id => exact (h.current hc).2

theorem Sound.openBlock {p : Nat} (h : t.Sound) (kind : BlockKind) (hp : p < t.blocks.size) :
    (t.openBlock kind p).Sound where
  bare := (blocks_openBlock kind h.size_pos).trans h.bare
  parent {id} h0 hid := by
    rw [size_openBlock] at hid
    rcases Nat.lt_succ_iff_lt_or_eq.mp hid with hlt | rfl
    · simpa [hlt] using h.parent h0 hlt
    · exact ⟨p, by simp, hp⟩
  current {id} hc := by
    obtain rfl : t.blocks.size = id := by simpa using hc
    exact ⟨h.size_pos, by simp⟩

theorem Sound.openInner (h : t.Sound) (kind : BlockKind) : (t.openInner kind).Sound :=
  h.openBlock kind h.current_getD_lt

theorem Sound.closeBlock (h : t.Sound) : t.closeBlock.Sound where
  bare := h.bare
  parent h0 hid := h.parent h0 hid
  current {id} hc := by
    obtain ⟨hne, c, hcur, hpar⟩ := current?_closeBlock_eq_some_iff.mp hc
    obtain ⟨hc0, hcs⟩ := h.current hcur
    obtain ⟨p, hp, hlt⟩ := h.parent hc0 hcs
    obtain rfl : p = id := by simpa [hp] using hpar
    exact ⟨Nat.pos_of_ne_zero hne, show p < t.blocks.size by omega⟩

theorem Sound.declare {name : String} {type : DataType} (h : t.Sound) (hb : 0 < b)
    (hd : t.declare b name type = .ok u) : u.Sound where
  bare := by
    rw [getElem?_of_declare hd, if_neg (show b ≠ global from Nat.ne_of_gt hb)]
    exact h.bare
  parent {id} h0 hid := by
    rw [size_of_declare hd] at hid
    rw [parent?_of_declare hd]
    exact h.parent h0 hid
  current {id} hc := by
    rw [current?_of_declare hd] at hc
    rw [size_of_declare hd]
    exact h.current hc

/-! ## The frames of a table -/

/-- A block as a frame. -/
def frameAt (t : ScopeTable) (id : Nat) : Frame :=
  ⟨(t.kindOf id).isCompound, t.blocks[id]?.elim [] (·.declared)⟩

/-- A block and the blocks around it as frames, without the global one. -/
def framesFrom (t : ScopeTable) (id : Nat) : List Frame :=
  ((t.path id).filter (· ≠ global)).map t.frameAt

/-- The frames around the current place. -/
def frames (t : ScopeTable) : List Frame :=
  t.current?.elim [] t.framesFrom

theorem frames_of_current (h : t.current? = some id) : t.frames = t.framesFrom id := by
  simp [frames, h]

theorem Sound.path_global (h : t.Sound) : t.path global = [global] := by
  apply path_of_parent_none
  simp [parent?, h.bare]

@[simp]
theorem Sound.framesFrom_global (h : t.Sound) : t.framesFrom global = [] := by
  simp [framesFrom, h.path_global]

theorem Sound.framesFrom_of_parent {p : Nat} (h : t.Sound) (h0 : 0 < id) (hs : id < t.blocks.size)
    (hp : t.parent? id = some p) : t.framesFrom id = t.frameAt id :: t.framesFrom p := by
  obtain ⟨q, hq, hlt⟩ := h.parent h0 hs
  obtain rfl : q = p := by simpa [hq] using hp
  simp [framesFrom, path_of_parent hq hlt, global, Nat.ne_of_gt h0]

/-- Frames are told apart by the path and by the blocks on it. -/
theorem framesFrom_congr (hp : u.path id = t.path id) (hf : ∀ c ∈ t.path id, u.frameAt c = t.frameAt c) :
    u.framesFrom id = t.framesFrom id := by
  rw [framesFrom, hp, framesFrom]
  exact List.map_congr_left fun c hc => hf c (List.mem_filter.mp hc).1

theorem Sound.frames_of_current (h : t.Sound) (hc : t.current? = some b) :
    ∃ p, t.parent? b = some p ∧ t.frames = t.frameAt b :: t.framesFrom p := by
  obtain ⟨h0, hs⟩ := h.current hc
  obtain ⟨p, hp, _⟩ := h.parent h0 hs
  exact ⟨p, hp, by rw [ScopeTable.frames_of_current hc, h.framesFrom_of_parent h0 hs hp]⟩

/-! ## What the operations do to the frames -/

theorem frames_empty : empty.frames = [] := rfl

@[simp]
theorem frameAt_openBlock {p : Nat} (kind : BlockKind) (h : id < t.blocks.size) :
    (t.openBlock kind p).frameAt id = t.frameAt id := by
  simp [frameAt, h]

@[simp]
theorem frameAt_openBlock_new {p : Nat} (kind : BlockKind) :
    (t.openBlock kind p).frameAt t.blocks.size = ⟨kind.isCompound, []⟩ := by
  cases kind <;> simp [frameAt, kindOf, openBlock]

@[simp]
theorem framesFrom_openBlock {p : Nat} (kind : BlockKind) (h : id < t.blocks.size) :
    (t.openBlock kind p).framesFrom id = t.framesFrom id :=
  framesFrom_congr (path_openBlock kind h) fun _ hc =>
    frameAt_openBlock kind (Nat.lt_of_le_of_lt (le_of_mem_path hc) h)

/-- Opening a block puts a frame without variables on those of the block around it. -/
@[simp]
theorem frames_openBlock {p : Nat} (h : t.Sound) (kind : BlockKind) (hp : p < t.blocks.size) :
    (t.openBlock kind p).frames = ⟨kind.isCompound, []⟩ :: t.framesFrom p := by
  have hnew : t.blocks.size < (t.openBlock kind p).blocks.size := by simp
  have hfrom := (h.openBlock kind hp).framesFrom_of_parent h.size_pos hnew (parent?_openBlock_new kind)
  simp [frames_of_current, hfrom, hp]

@[simp]
theorem frames_openInner (h : t.Sound) (kind : BlockKind) :
    (t.openInner kind).frames = ⟨kind.isCompound, []⟩ :: t.frames := by
  rw [openInner, frames_openBlock h kind h.current_getD_lt]
  cases hc : t.current? with
  | none => simp [frames, hc, h.framesFrom_global]
  | some id => simp [frames, hc]

@[simp]
theorem framesFrom_closeBlock : t.closeBlock.framesFrom id = t.framesFrom id :=
  framesFrom_congr path_closeBlock fun _ _ => rfl

/-- Closing a block pops a frame. -/
@[simp]
theorem frames_closeBlock (h : t.Sound) : t.closeBlock.frames = t.frames.tail := by
  cases hc : t.current? with
  | none => simp [frames, closeBlock, hc]
  | some id =>
    obtain ⟨h0, hs⟩ := h.current hc
    obtain ⟨p, hp, _⟩ := h.parent h0 hs
    rw [frames_of_current hc, h.framesFrom_of_parent h0 hs hp, List.tail_cons]
    by_cases hg : p = global
    · rw [hg, h.framesFrom_global]
      simp [frames, closeBlock, hc, hp, hg, Option.filter]
    · have hleft := current?_closeBlock_eq_some_iff.mpr ⟨hg, id, hc, hp⟩
      rw [frames_of_current hleft, framesFrom_closeBlock]

theorem frameAt_of_declare {name : String} {type : DataType} (hd : t.declare b name type = .ok u)
    (hb : b < t.blocks.size) (c : Nat) :
    u.frameAt c = if c = b then (t.frameAt b).add name type else t.frameAt c := by
  obtain ⟨block, hblock⟩ : ∃ block, t.blocks[b]? = some block := ⟨_, Array.getElem?_eq_getElem hb⟩
  simp only [frameAt, kindOf, getElem?_of_declare hd]
  by_cases hcb : c = b
  · subst hcb
    simp [hblock, Block.add, Frame.add]
  · simp [hcb, Ne.symm hcb]

theorem lookup?_eq_frameAt (name : String) : t.lookup? id name = (t.frameAt id).declared.lookup name := by
  rw [lookup?, frameAt]
  cases t.blocks[id]? <;> rfl

/-- The frame on top is the current block. -/
theorem lookup?_current {f : Frame} {rest : List Frame} (h : t.Sound) (hc : t.current? = some b)
    (hf : t.frames = f :: rest) (name : String) : t.lookup? b name = f.declared.lookup name := by
  obtain ⟨h0, hs⟩ := h.current hc
  obtain ⟨p, hp, _⟩ := h.parent h0 hs
  rw [frames_of_current hc, h.framesFrom_of_parent h0 hs hp] at hf
  rw [lookup?_eq_frameAt, (List.cons.inj hf).1]

/-- Declaring a variable in the current block adds it to the frame on top. -/
theorem frames_declare {name : String} {type : DataType} {f : Frame} {rest : List Frame} (h : t.Sound)
    (hc : t.current? = some b) (hf : t.frames = f :: rest) (hd : t.declare b name type = .ok u) :
    u.frames = f.add name type :: rest := by
  obtain ⟨h0, hs⟩ := h.current hc
  obtain ⟨p, hp, hlt⟩ := h.parent h0 hs
  have hu := h.declare h0 hd
  have hcu : u.current? = some b := by rw [current?_of_declare hd, hc]
  have hpu : u.parent? b = some p := by rw [parent?_of_declare hd, hp]
  rw [frames_of_current hc, h.framesFrom_of_parent h0 hs hp] at hf
  obtain ⟨rfl, rfl⟩ := List.cons.inj hf
  rw [frames_of_current hcu, hu.framesFrom_of_parent h0 (hu.current hcu).2 hpu, frameAt_of_declare hd hs, if_pos rfl]
  congr 1
  refine framesFrom_congr (path_of_declare hd p) fun c hcp => ?_
  have := le_of_mem_path hcp
  rw [frameAt_of_declare hd hs, if_neg (by omega)]

/-! ## Questions about the current place -/

/-- A name means to a block what the frames from the block on say. -/
theorem Sound.resolve?_eq (h : t.Sound) (name : String) (hs : id < t.blocks.size) :
    t.resolve? id name = typeIn? (t.framesFrom id) name := by
  induction id using Nat.strongRecOn with
  | _ id ih =>
    rcases Nat.eq_zero_or_pos id with rfl | h0
    · have hbare : t.lookup? global name = none := by simp [lookup?, h.bare, Block.lookup?]
      rw [show (0 : Nat) = global from rfl, resolve?, h.path_global, h.framesFrom_global]
      simp [hbare]
    · obtain ⟨p, hp, hlt⟩ := h.parent h0 hs
      rw [resolve?_of_parent hp hlt, h.framesFrom_of_parent h0 hs hp, typeIn?_cons, lookup?_eq_frameAt,
        ih p hlt (by omega)]

theorem Sound.compoundDepth_eq (h : t.Sound) (hs : id < t.blocks.size) :
    t.compoundDepth id = compoundsIn (t.framesFrom id) := by
  induction id using Nat.strongRecOn with
  | _ id ih =>
    rcases Nat.eq_zero_or_pos id with rfl | h0
    · rw [show (0 : Nat) = global from rfl, compoundDepth, h.path_global, h.framesFrom_global]
      simp [kindOf, h.bare]
    · obtain ⟨p, hp, hlt⟩ := h.parent h0 hs
      rw [compoundDepth_of_parent hp hlt, h.framesFrom_of_parent h0 hs hp, compoundsIn_cons, ih p hlt (by omega)]
      rfl

/-- A name means at the current place what the frames say. -/
theorem find?_eq (h : t.Sound) (name : String) : t.find? name = typeIn? t.frames name := by
  cases hc : t.current? with
  | none => simp [find?, frames, hc]
  | some id => rw [find?, hc, Option.bind_some, h.resolve?_eq name (h.current hc).2, frames_of_current hc]

theorem openCompounds_eq (h : t.Sound) : t.openCompounds = compoundsIn t.frames := by
  cases hc : t.current? with
  | none => simp [openCompounds, frames, hc]
  | some id => rw [openCompounds, hc, Option.elim_some, h.compoundDepth_eq (h.current hc).2, frames_of_current hc]

/-- The innermost open block is a compound one exactly if the frame on top is. -/
theorem inCompound_eq (h : t.Sound) : t.inCompound = t.frames.head?.any (·.compound) := by
  cases hc : t.current? with
  | none => simp [inCompound, currentKind, frames, hc]
  | some id =>
    obtain ⟨h0, hs⟩ := h.current hc
    obtain ⟨p, hp, _⟩ := h.parent h0 hs
    rw [frames_of_current hc, h.framesFrom_of_parent h0 hs hp]
    simp [inCompound, currentKind, hc, frameAt]

end ScopeTable

end MiniPascal
