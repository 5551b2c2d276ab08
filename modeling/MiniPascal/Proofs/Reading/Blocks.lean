import MiniPascal.Proofs.Analysis.Turns
import MiniPascal.Proofs.Reading.Reference

/-!
# The blocks of a run

The frames of a scope table hold the declarations of the blocks that are open there (`Mirrors`): a name means to them
what it means to the blocks (`Mirrors.typeIn?`), and a lexeme that a goal takes turns both alike (`mirrors_of_turns`).
-/

namespace MiniPascal

variable {i : Nat} {x : Lexeme} {p : Phase} {g : Goal} {frames frames' : List Frame} {blocks : List (List Declaration)}

/-- The frames hold the declarations of the blocks. -/
def Mirrors (frames : List Frame) (blocks : List (List Declaration)) : Prop :=
  frames.map (·.declared) = blocks.map fun block => block.map fun d => (d.name, d.type)

theorem lookup_entries (block : List Declaration) (name : String) :
    (block.map fun d => (d.name, d.type)).lookup name = (block.find? (·.name = name)).map (·.type) := by
  induction block with
  | nil => rfl
  | cons d block ih =>
    rw [List.map_cons, List.lookup_cons, ih, List.find?_cons]
    by_cases hd : d.name = name
    · simp [hd]
    · have hne : (name == d.name) = false := beq_eq_false_iff_ne.mpr (Ne.symm hd)
      simp [hd, hne]

/-- A name means to the frames what it means to the blocks. -/
theorem Mirrors.typeIn? (h : Mirrors frames blocks) (name : String) :
    MiniPascal.typeIn? frames name = (findIn? blocks name).map (·.type) := by
  have hframes : MiniPascal.typeIn? frames name = (frames.map (·.declared)).findSome? (·.lookup name) := by
    rw [List.findSome?_map]
    rfl
  rw [hframes, h, List.findSome?_map, findIn?, List.map_findSome?]
  exact congrArg (blocks.findSome? ·) (funext fun block => lookup_entries block name)

theorem Mirrors.head {f : Frame} {others : List Frame} (h : Mirrors (f :: others) blocks) :
    ∃ block more, blocks = block :: more ∧ f.declared = block.map (fun d => (d.name, d.type)) ∧ Mirrors others more := by
  cases blocks with
  | nil => cases h
  | cons block more =>
    obtain ⟨hblock, hmore⟩ := List.cons.inj h
    exact ⟨block, more, rfl, hblock, hmore⟩

theorem Mirrors.tail (h : Mirrors frames blocks) : Mirrors frames.tail blocks.tail := by
  rw [Mirrors, List.map_tail, List.map_tail]
  exact congrArg List.tail h

theorem blocksBehind_of_keep (hx : x.category ∉ blockWords) (hp : ∀ type, p ≠ .nameDue type) :
    blocksBehind i p x blocks = blocks := by
  have hblock (c : Category) (hc : c ∈ blockWords) : x.category ≠ c := fun he => hx (he ▸ hc)
  unfold blocksBehind
  split
  · exact absurd ‹_› (hblock .programWord (by decide))
  · exact absurd ‹_› (hblock .beginWord (by decide))
  · exact absurd ‹_› (hblock .compoundOpen (by decide))
  · exact absurd ‹_› (hblock .compoundClose (by decide))
  · exact absurd ‹_› (hblock .endWord (by decide))
  · exact absurd rfl (hp _)
  · rfl

/-- The words that open and close blocks and the names that are declared turn frames and blocks alike. -/
theorem mirrors_of_turns (h : Mirrors frames blocks) (ht : Turns frames x g frames')
    (hdeclares : ∀ type, p = .nameDue type ↔ g = .variableName type) :
    Mirrors frames' (blocksBehind i p x blocks) := by
  cases ht with
  | keep hg hx =>
    rw [blocksBehind_of_keep hx fun type hp => hg type ((hdeclares type).mp hp)]
    exact h
  | program hx => 
    simp only [blocksBehind, hx]
    rfl
  | body hx =>
    simp only [blocksBehind, hx]
    exact congrArg (List.cons []) h
  | opening hx =>
    simp only [blocksBehind, hx]
    exact congrArg (List.cons []) h
  | closing hx _ =>
    simp only [blocksBehind, hx]
    exact h.tail
  | ending hx =>
    simp only [blocksBehind, hx]
    exact h.tail
  | @declare type f others hx _ hf _ =>
    subst hf
    obtain ⟨block, more, rfl, hblock, hmore⟩ := h.head
    simp only [blocksBehind, hx, (hdeclares type).mpr rfl, addDeclaration]
    rw [Mirrors, List.map_cons, List.map_cons, hmore]
    simp [Frame.add, hblock]

/-- The declarations of the blocks are variables of the frames. -/
theorem Mirrors.mem (h : Mirrors frames blocks) {block : List Declaration} {d : Declaration} (hb : block ∈ blocks)
    (hd : d ∈ block) : ∃ f ∈ frames, (d.name, d.type) ∈ f.declared := by
  have hentry : (d.name, d.type) ∈ block.map fun d => (d.name, d.type) := List.mem_map_of_mem hd
  have hmem : (block.map fun d => (d.name, d.type)) ∈ frames.map (·.declared) := by
    rw [h]
    exact List.mem_map_of_mem hb
  obtain ⟨f, hf, he⟩ := List.mem_map.mp hmem
  exact ⟨f, hf, he ▸ hentry⟩

theorem findIn?_eq_none {name : String} :
    findIn? blocks name = none ↔ ∀ block ∈ blocks, ∀ d ∈ block, d.name ≠ name := by
  simp [findIn?]

end MiniPascal
