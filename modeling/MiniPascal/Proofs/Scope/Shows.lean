import MiniPascal.Goal.Reaction
import MiniPascal.Proofs.Scope.Frames

/-!
# What a scope table shows

A sound table whose variables are all named by identifiers shows its frames, and every question that a goal asks about
the current place is answered by them (`Shows.find?`, `Shows.hasRoom_iff`, `Shows.inCompound`). The operations lead
from one table that shows its frames to another (`Shows.openInner`, `Shows.closeBlock`, `Shows.declare`). No variable
has the name of a literal (`Shows.typeIn?_literal`).
-/

namespace MiniPascal

variable {t : ScopeTable} {frames rest : List Frame} {f : Frame}

/-- A sound table shows its frames, in which every variable is named by an identifier. -/
structure ScopeTable.Shows (t : ScopeTable) (frames : List Frame) : Prop where
  sound : t.Sound
  frames_eq : t.frames = frames
  identifiers {f : Frame} (hf : f ∈ frames) {v : String × DataType} (hv : v ∈ f.declared) : isIdentifier v.1

namespace ScopeTable

theorem shows_empty : empty.Shows [] where
  sound := sound_empty
  frames_eq := frames_empty
  identifiers hf := by cases hf

namespace Shows

/-! ## Questions -/

theorem find? (h : t.Shows frames) (name : String) : t.find? name = typeIn? frames name := by
  rw [ScopeTable.find?_eq h.sound, h.frames_eq]

theorem hasRoom_iff (h : t.Shows frames) (depth : Nat) :
    t.hasRoom depth ↔ depth + compoundsIn frames ≤ maxNesting := by
  rw [hasRoom, openCompounds_eq h.sound, h.frames_eq, decide_eq_true_eq]

theorem inCompound (h : t.Shows frames) : t.inCompound = frames.head?.any (·.compound) := by
  rw [inCompound_eq h.sound, h.frames_eq]

/-- Where a frame is open there is a current block. -/
theorem current (h : t.Shows (f :: rest)) : ∃ b, t.current? = some b := by
  cases hc : t.current? with
  | none => simpa [frames, hc] using h.frames_eq
  | some b => exact ⟨b, rfl⟩

/-- The current block is the frame on top. -/
theorem exists_cons (h : t.Shows frames) {b : Nat} (hc : t.current? = some b) : ∃ f rest, frames = f :: rest := by
  obtain ⟨p, _, hf⟩ := h.sound.frames_of_current hc
  exact ⟨_, _, h.frames_eq.symm.trans hf⟩

/-- A literal names no variable. -/
theorem typeIn?_literal (h : t.Shows frames) {text : String} (hl : (DataType.ofLiteral? text).isSome) :
    typeIn? frames text = none := by
  refine List.findSome?_eq_none_iff.mpr fun f hf => ?_
  refine List.lookup_eq_none_iff.mpr fun v hv => ?_
  have hid := h.identifiers hf hv
  rw [bne_iff_ne]
  rintro rfl
  simp [ofLiteral?_of_isIdentifier hid] at hl

/-! ## Operations -/

theorem openInner (h : t.Shows frames) (kind : BlockKind) : (t.openInner kind).Shows (⟨kind.isCompound, []⟩ :: frames) where
  sound := h.sound.openInner kind
  frames_eq := by simp [h.sound, h.frames_eq]
  identifiers hf _ hv := by
    rcases List.mem_cons.mp hf with rfl | hf
    · cases hv
    · exact h.identifiers hf hv

/-- A block of the global one is the only one that is open. -/
theorem openOutermost (h : t.Shows frames) (kind : BlockKind) : (t.openBlock kind global).Shows [⟨kind.isCompound, []⟩] where
  sound := h.sound.openBlock kind h.sound.size_pos
  frames_eq := by
    have hg : global < t.blocks.size := h.sound.size_pos
    simp [h.sound, hg]
  identifiers hf _ hv := by
    obtain rfl := List.mem_singleton.mp hf
    cases hv

theorem closeBlock (h : t.Shows frames) : t.closeBlock.Shows frames.tail where
  sound := h.sound.closeBlock
  frames_eq := by simp [h.sound, h.frames_eq]
  identifiers hf _ hv := h.identifiers (List.mem_of_mem_tail hf) hv

/-- Declaring an identifier in the current block adds it to the frame on top. -/
theorem declare (h : t.Shows (f :: rest)) {b : Nat} {u : ScopeTable} {name : String} {type : DataType}
    (hc : t.current? = some b) (hn : isIdentifier name) (hd : t.declare b name type = .ok u) :
    u.Shows (f.add name type :: rest) where
  sound := h.sound.declare (h.sound.current hc).1 hd
  frames_eq := frames_declare h.sound hc h.frames_eq hd
  identifiers {g} hg v hv := by
    rcases List.mem_cons.mp hg with rfl | hg
    · rcases List.mem_append.mp hv with hv | hv
      · exact h.identifiers List.mem_cons_self hv
      · obtain rfl := List.mem_singleton.mp hv
        exact hn
    · exact h.identifiers (List.mem_cons_of_mem _ hg) hv

/-- An identifier is declared, unless the frame on top already has it. -/
theorem declareName (h : t.Shows (f :: rest)) {x : Lexeme} (hn : isIdentifier x.text)
    (hx : x.category = .unclassified) (type : DataType) :
    if (f.declared.lookup x.text).isSome then
      ∀ here, MiniPascal.declareName t here x type = here.refuse .alreadyDeclared
    else
      ∃ u : ScopeTable, u.Shows (f.add x.text type :: rest) ∧
        ∀ here, MiniPascal.declareName t here x type = .take u [] := by
  obtain ⟨b, hb⟩ := h.current
  have hl := lookup?_current h.sound hb h.frames_eq x.text
  split
  case isTrue hsome =>
    intro here
    rw [← hl] at hsome
    simp [MiniPascal.declareName, hn, hx, hb, ScopeTable.declare, hsome]
  case isFalse hnone =>
    rw [← hl] at hnone
    obtain ⟨u, hu⟩ : ∃ u, t.declare b x.text type = .ok u := ⟨_, if_neg hnone⟩
    refine ⟨u, h.declare hb hn hu, ?_⟩
    intro here
    simp [MiniPascal.declareName, hn, hx, hb, hu]

end Shows

end ScopeTable

end MiniPascal
