import MiniPascal.Proofs.Blocks.Stages

/-!
# The scope table mirrors the brackets

Wherever a run gets, the blocks of its scope table and the current one are those that the words before tell
(`Outlined`).

* `ScopeTable.outline`: the kinds of the blocks of a table with the blocks around them; what the operations do to it.
* `Tracks`, `tracks_of_reaches`: the invariant, beside the stages of the run.
-/

namespace MiniPascal

/-! ## The outline of a table -/

namespace ScopeTable

variable {t u : ScopeTable} {id : Nat}

/-- The kinds of the blocks of a table with the blocks around them. -/
def outline (t : ScopeTable) : List (BlockKind × Option Nat) :=
  t.blocks.toList.map fun block => (block.kind, block.parent?)

theorem getElem?_outline : t.outline[id]? = t.blocks[id]?.map fun block => (block.kind, block.parent?) := by
  simp [outline]

@[simp]
theorem length_outline : t.outline.length = t.blocks.size := by
  simp [outline]

theorem kindOf_eq_outline : t.kindOf id = t.outline[id]?.elim .global (·.1) := by
  rw [kindOf, getElem?_outline]
  cases t.blocks[id]? <;> rfl

theorem parent?_eq_outline : t.parent? id = t.outline[id]?.bind (·.2) := by
  rw [parent?, getElem?_outline]
  cases t.blocks[id]? <;> rfl

@[simp]
theorem outline_openBlock (kind : BlockKind) (p : Nat) : (t.openBlock kind p).outline =
    t.outline ++ [(if kind.isCompound then .compound (t.compounds + 1) else kind, some p)] := by
  cases kind <;> simp [outline, openBlock]

@[simp]
theorem outline_closeBlock : t.closeBlock.outline = t.outline := rfl

theorem outline_of_declare {name : String} {type : DataType} (h : t.declare id name type = .ok u) :
    u.outline = t.outline := by
  apply List.ext_getElem?
  intro b
  rw [getElem?_outline, getElem?_outline, getElem?_of_declare h]
  split
  · cases t.blocks[b]? <;> rfl
  · rfl

end ScopeTable

variable {program : List Lexeme} {i b : Nat} {t t' : ScopeTable} {x : Lexeme} {g : Goal}

/-! ## Words that open and close no block -/

theorem not_standsAt_of_ne {c : Category} (hx : wordAt? program i = some x) (hc : x.category ≠ c) :
    ¬ standsAt program c i := by
  rwa [standsAt_iff hx]

/-- No bracket stands at an index. -/
structure NoBracket (program : List Lexeme) (i : Nat) : Prop where
  opening : ¬ standsAt program .compoundOpen i
  closing : ¬ standsAt program .compoundClose i

namespace NoBracket

theorem of_word (hx : wordAt? program i = some x) (hc : x.category ∉ [.compoundOpen, .compoundClose]) :
    NoBracket program i where
  opening := not_standsAt_of_ne hx fun he => hc (by simp [he])
  closing := not_standsAt_of_ne hx fun he => hc (by simp [he])

variable (h : NoBracket program i)
include h

theorem opened_eq : opened program (i + 1) = opened program i := opened_other h.opening

theorem openBrackets_eq : openBrackets program (i + 1) = openBrackets program i :=
  openBrackets_other h.opening h.closing

/-- Where no bracket stands the same brackets are balanced. -/
theorem balance (hb : opened program i = closed program i + (openBrackets program i).length) :
    opened program (i + 1) = closed program (i + 1) + (openBrackets program (i + 1)).length := by
  simp [h.opening, h.closing, hb]

end NoBracket

section Still

variable (h : ∀ c ∈ blockWords, ¬ standsAt program c i)
include h

theorem NoBracket.of_still : NoBracket program i where
  opening := h _ (by simp)
  closing := h _ (by simp)

theorem outline_still : outline program (i + 1) = outline program i := by
  have hp := h .programWord (by simp)
  have hb := h .beginWord (by simp)
  simp [outline, hp, hb, (NoBracket.of_still h).opening]

theorem currentPlace?_still : currentPlace? program (i + 1) = currentPlace? program i := by
  have hp := h .programWord (by simp)
  have hb := h .beginWord (by simp)
  have he := h .endWord (by simp)
  simp [currentPlace?, hp, hb, he, innermostPlace_congr (NoBracket.of_still h).openBrackets_eq]

end Still

/-! ## The invariant -/

/-- The scope table has the blocks and the current block that the words before an index tell. -/
structure Tracks (program : List Lexeme) (i : Nat) (t : ScopeTable) : Prop where
  outline_eq : t.outline = outline program i
  bare : t.blocks[ScopeTable.global]? = some ⟨.global, none, []⟩
  current : t.current? = currentPlace? program i
  compounds : t.compounds = opened program i
  balance : opened program i = closed program i + (openBrackets program i).length

theorem Tracks.still (h : Tracks program i t) (hx : ∀ c ∈ blockWords, ¬ standsAt program c i)
    (houtline : t'.outline = t.outline) (hbare : t'.blocks[ScopeTable.global]? = t.blocks[ScopeTable.global]?)
    (hcurrent : t'.current? = t.current?) (hcompounds : t'.compounds = t.compounds) : Tracks program (i + 1) t' where
  outline_eq := by rw [houtline, h.outline_eq, outline_still hx]
  bare := by rw [hbare, h.bare]
  current := by rw [hcurrent, h.current, currentPlace?_still hx]
  compounds := by rw [hcompounds, h.compounds, (NoBracket.of_still hx).opened_eq]
  balance := (NoBracket.of_still hx).balance h.balance

section Passed

variable {header begun ended : Bool} (hp : Passed program i header begun ended)
include hp

theorem Passed.outline_eq : outline program i = [(.global, none)] ++
    (if header then [(.program, some ScopeTable.global)] else []) ++
    (if begun then [(.body, some programPlace)] else []) ++ bracketOutline program i := by
  simp only [outline, hp.header, hp.begun]

theorem Passed.currentPlace?_eq : currentPlace? program i =
    if header = false then none
    else if begun = true ∧ ended = false then some (innermostPlace program i) else some programPlace := by
  simp only [currentPlace?, hp.header, hp.begun, hp.ended, Bool.not_eq_true]

end Passed

/-- The blocks are the global one, those of the header and the body, and one for each bracket. -/
theorem Tracks.size_eq (h : Tracks program i t) {header begun ended : Bool} (hp : Passed program i header begun ended) :
    t.blocks.size = 1 + header.toNat + begun.toNat + opened program i := by
  rw [← ScopeTable.length_outline, h.outline_eq, hp.outline_eq]
  cases header <;> cases begun <;> simp <;> omega

/-- A block that is opened leaves the global one bare. -/
theorem Tracks.bare_openBlock (h : Tracks program i t) (kind : BlockKind) (p : Nat) :
    (t.openBlock kind p).blocks[ScopeTable.global]? = some ⟨.global, none, []⟩ := by
  have hpos : ScopeTable.global < t.blocks.size := (Array.getElem?_eq_some_iff.mp h.bare).1
  rw [ScopeTable.blocks_openBlock kind hpos, h.bare]

/-! ## Inside the body -/

section Body

variable (h : Tracks program i t) (hp : Passed program i true true false)
include h hp

theorem Tracks.getElem?_body : t.outline[bodyPlace]? = some (.body, some programPlace) := by
  rw [h.outline_eq, hp.outline_eq]
  rfl

theorem Tracks.getElem?_bracket (hb : standsAt program .compoundOpen b) (hlt : b < i) :
    t.outline[bracketPlace program b]? =
      some (.compound (opened program b + 1), some (innermostPlace program b)) := by
  have hlen : ([(.global, none)] ++ [(.program, some ScopeTable.global)] ++ [(.body, some programPlace)] :
      List (BlockKind × Option Nat)).length = bodyPlace + 1 := rfl
  rw [h.outline_eq, hp.outline_eq, if_pos rfl, if_pos rfl, bracketPlace,
    List.getElem?_append_right (by rw [hlen]; omega), hlen, Nat.add_sub_cancel_left]
  exact getElem?_bracketOutline hb hlt

theorem Tracks.current_body : t.current? = some (innermostPlace program i) := by
  rw [h.current, hp.currentPlace?_eq]
  rfl

/-- The innermost open block is one of a bracket exactly if a bracket is open. -/
theorem Tracks.inCompound_body : t.inCompound = !(openBrackets program i).isEmpty := by
  simp only [ScopeTable.inCompound, ScopeTable.currentKind, h.current_body hp, Option.elim_some,
    ScopeTable.kindOf_eq_outline]
  cases hopen : openBrackets program i with
  | nil => simp [hopen, h.getElem?_body hp]
  | cons b outer =>
    obtain ⟨_, hb, hlt⟩ := openBrackets_of_cons hopen
    simp [innermostPlace_cons hopen, h.getElem?_bracket hp hb hlt]

/-- The blocks around the innermost one are those of the open brackets, the body, and the program. -/
theorem Tracks.path_body {j : Nat} (hj : j ≤ i) : t.path (innermostPlace program j) =
    (openBrackets program j).map (bracketPlace program) ++ [bodyPlace, programPlace, ScopeTable.global] := by
  induction j using Nat.strongRecOn with
  | _ j ih =>
    cases hopen : openBrackets program j with
    | nil =>
      have hbody : t.parent? bodyPlace = some programPlace := by
        rw [ScopeTable.parent?_eq_outline, h.getElem?_body hp]
        rfl
      have hprogram : t.parent? programPlace = some ScopeTable.global := by
        rw [ScopeTable.parent?_eq_outline, h.outline_eq, hp.outline_eq]
        rfl
      have hglobal : t.parent? ScopeTable.global = none := by
        rw [ScopeTable.parent?, h.bare]
        rfl
      rw [innermostPlace_nil hopen, ScopeTable.path_of_parent hbody (by decide),
        ScopeTable.path_of_parent hprogram (by decide), ScopeTable.path_of_parent_none hglobal]
      rfl
    | cons b outer =>
      obtain ⟨houter, hb, hlt⟩ := openBrackets_of_cons hopen
      have hparent : t.parent? (bracketPlace program b) = some (innermostPlace program b) := by
        rw [ScopeTable.parent?_eq_outline, h.getElem?_bracket hp hb (by omega)]
        rfl
      rw [innermostPlace_cons hopen, ScopeTable.path_of_parent hparent innermostPlace_lt_bracketPlace,
        ih b hlt (by omega), houter]
      rfl

/-- As many compound blocks are open as brackets. -/
theorem Tracks.openCompounds_body : t.openCompounds = (openBrackets program i).length := by
  have hbrackets : ∀ p ∈ (openBrackets program i).map (bracketPlace program), (t.kindOf p).isCompound = true := by
    intro p hmem
    obtain ⟨b, hb, rfl⟩ := List.mem_map.mp hmem
    obtain ⟨inner, outer, hopen⟩ := List.append_of_mem hb
    simp [ScopeTable.kindOf_eq_outline, h.getElem?_bracket hp (openBrackets_of_append hopen).2 (lt_of_mem_openBrackets hb)]
  have hothers : [bodyPlace, programPlace, ScopeTable.global].countP (fun p => (t.kindOf p).isCompound) = 0 := by
    simp only [ScopeTable.kindOf_eq_outline, h.outline_eq, hp.outline_eq]
    rfl
  rw [ScopeTable.openCompounds, h.current_body hp, Option.elim_some, ScopeTable.compoundDepth,
    h.path_body hp (Nat.le_refl i), List.countP_append, List.countP_eq_length.mpr hbrackets, List.length_map, hothers,
    Nat.add_zero]

end Body

/-- Before the body and behind it no compound block is open. -/
theorem Tracks.outside (h : Tracks program i t) {header begun : Bool} (hp : Passed program i header begun begun) :
    t.openCompounds = 0 ∧ t.inCompound = false := by
  have hcurrent := h.current
  rw [hp.currentPlace?_eq] at hcurrent
  cases header with
  | false => simp [ScopeTable.openCompounds, ScopeTable.inCompound, ScopeTable.currentKind, hcurrent]
  | true =>
    have hcurrent : t.current? = some programPlace := by simpa using hcurrent
    have hprogram : t.outline[programPlace]? = some (.program, some ScopeTable.global) := by
      rw [h.outline_eq, hp.outline_eq]
      rfl
    have hkind : t.kindOf programPlace = .program := by
      rw [ScopeTable.kindOf_eq_outline, hprogram]
      rfl
    have hparent : t.parent? programPlace = some ScopeTable.global := by
      rw [ScopeTable.parent?_eq_outline, hprogram]
      rfl
    have hbare : t.kindOf ScopeTable.global = .global ∧ t.parent? ScopeTable.global = none := by
      rw [ScopeTable.kindOf, ScopeTable.parent?, h.bare]
      exact ⟨rfl, rfl⟩
    have hpath : t.path programPlace = [programPlace, ScopeTable.global] := by
      rw [ScopeTable.path_of_parent hparent (by decide), ScopeTable.path_of_parent_none hbare.2]
    constructor
    · simp [ScopeTable.openCompounds, ScopeTable.compoundDepth, hcurrent, hpath, hkind, hbare.1]
    · simp [ScopeTable.inCompound, ScopeTable.currentKind, hcurrent, hkind]

/-! ## Words that open and close blocks -/

theorem bracketOutline_eq_nil (ho : opened program i = 0) : bracketOutline program i = [] :=
  List.eq_nil_of_length_eq_zero (length_bracketOutline.trans ho)

section Steps

variable (h : Tracks program i t) (hx : wordAt? program i = some x)
include h hx

/-- The header opens the block of the program. -/
theorem Tracks.step_program (hp : Passed program i false false false) (ho : opened program i = 0)
    (hc : x.category = .programWord) : Tracks program (i + 1) (t.openBlock .program ScopeTable.global) := by
  have hnone : NoBracket program i := .of_word hx (by simp [hc])
  have hp' : Passed program (i + 1) true false false := by simpa [hc] using hp.succ hx
  have hsize : t.blocks.size = programPlace := by simp [h.size_eq hp, ho, programPlace]
  constructor
  · simp [h.outline_eq, hp.outline_eq, hp'.outline_eq, hnone.opening, bracketOutline_eq_nil ho]
  · exact h.bare_openBlock _ _
  · simp [hp'.currentPlace?_eq, hsize]
  · simpa [hnone.opening] using h.compounds
  · exact hnone.balance h.balance

/-- The word `begin` opens the body in the block of the program. -/
theorem Tracks.step_begin (hp : Passed program i true false false) (ho : opened program i = 0)
    (hn : openBrackets program i = []) (hc : x.category = .beginWord) :
    Tracks program (i + 1) (t.openInner .body) := by
  have hnone : NoBracket program i := .of_word hx (by simp [hc])
  have hp' : Passed program (i + 1) true true false := by simpa [hc] using hp.succ hx
  have hcurrent : t.current? = some programPlace := by simp [h.current, hp.currentPlace?_eq]
  have hsize : t.blocks.size = bodyPlace := by simp [h.size_eq hp, ho, bodyPlace]
  rw [ScopeTable.openInner, hcurrent]
  constructor
  · simp [h.outline_eq, hp.outline_eq, hp'.outline_eq, hnone.opening, bracketOutline_eq_nil ho]
  · exact h.bare_openBlock _ _
  · simp [hp'.currentPlace?_eq, hsize, hnone.opening, hnone.closing, hn]
  · simpa [hnone.opening] using h.compounds
  · exact hnone.balance h.balance

/-- A bracket opens the next compound block in the innermost one. -/
theorem Tracks.step_open (hp : Passed program i true true false) (hc : x.category = .compoundOpen) :
    Tracks program (i + 1) (t.openInner (.compound 0)) := by
  have hopening : standsAt program .compoundOpen i := (standsAt_iff hx).mpr hc
  have hclosing : ¬ standsAt program .compoundClose i := not_standsAt_of_ne hx (by simp [hc])
  have hp' : Passed program (i + 1) true true false := hp.keep hx (by simp [hc])
  have hsize : t.blocks.size = bracketPlace program i := by simp [h.size_eq hp, bracketPlace, bodyPlace]
  rw [ScopeTable.openInner, h.current_body hp]
  constructor
  · simp [h.outline_eq, hp.outline_eq, hp'.outline_eq, hopening, h.compounds]
  · exact h.bare_openBlock _ _
  · simp [hp'.currentPlace?_eq, hsize, innermostPlace_cons (openBrackets_open hopening)]
  · simp [hopening, h.compounds]
  · simp [hopening, hclosing, h.balance, Nat.add_assoc]

/-- A bracket closes the innermost compound block. -/
theorem Tracks.step_close (hp : Passed program i true true false) (hc : x.category = .compoundClose)
    (hin : t.inCompound = true) : Tracks program (i + 1) t.closeBlock := by
  have hopening : ¬ standsAt program .compoundOpen i := not_standsAt_of_ne hx (by simp [hc])
  have hclosing : standsAt program .compoundClose i := (standsAt_iff hx).mpr hc
  have hp' : Passed program (i + 1) true true false := hp.keep hx (by simp [hc])
  obtain ⟨b, outer, hopen⟩ : ∃ b outer, openBrackets program i = b :: outer := by
    rw [h.inCompound_body hp] at hin
    cases hopen : openBrackets program i with
    | nil => simp [hopen] at hin
    | cons b outer => exact ⟨b, outer, rfl⟩
  have hrest : openBrackets program (i + 1) = outer := by simp [hclosing, hopen]
  obtain ⟨houter, hb, hlt⟩ := openBrackets_of_cons hopen
  constructor
  · simp [h.outline_eq, hp.outline_eq, hp'.outline_eq, hopening]
  · exact h.bare
  · -- the block around the bracket's is the innermost one of the brackets that stay open
    have hparent : t.parent? (innermostPlace program i) = some (innermostPlace program (i + 1)) := by
      rw [innermostPlace_cons hopen, ScopeTable.parent?_eq_outline, h.getElem?_bracket hp hb hlt, Option.bind_some,
        innermostPlace_congr (houter.trans hrest.symm)]
    have hne : innermostPlace program (i + 1) ≠ ScopeTable.global := Nat.ne_of_gt innermostPlace_pos
    rw [hp'.currentPlace?_eq, ScopeTable.closeBlock, h.current_body hp, Option.bind_some, hparent]
    simp [Option.filter, hne]
  · simpa [hopening] using h.compounds
  · simp [hopening, hclosing, h.balance, hopen]
    omega

/-- The word `end` closes the body. -/
theorem Tracks.step_end (hp : Passed program i true true false) (hc : x.category = .endWord)
    (hn : openBrackets program i = []) : Tracks program (i + 1) t.closeBlock := by
  have hnone : NoBracket program i := .of_word hx (by simp [hc])
  have hp' : Passed program (i + 1) true true true := by simpa [hc] using hp.succ hx
  constructor
  · simp [h.outline_eq, hp.outline_eq, hp'.outline_eq, hnone.opening]
  · exact h.bare
  · have hparent : t.parent? (innermostPlace program i) = some programPlace := by
      rw [innermostPlace_nil hn, ScopeTable.parent?_eq_outline, h.getElem?_body hp]
      rfl
    rw [hp'.currentPlace?_eq, ScopeTable.closeBlock, h.current_body hp, Option.bind_some, hparent]
    rfl
  · simpa [hnone.opening] using h.compounds
  · exact hnone.balance h.balance

/-- A word that opens and closes no block. -/
theorem Tracks.step_keep (hc : x.category ∉ blockWords) : Tracks program (i + 1) t := by
  refine h.still ?_ rfl rfl rfl rfl
  intro c hmem
  exact not_standsAt_of_ne hx fun he => hc (he ▸ hmem)

/-- A name that is declared. -/
theorem Tracks.step_declare {block : Nat} {type : DataType} (hc : x.category = .unclassified)
    (hcurrent : t.current? = some block) (hd : t.declare block x.text type = .ok t') : Tracks program (i + 1) t' := by
  have hne : block ≠ ScopeTable.global := by
    rw [h.current] at hcurrent
    unfold currentPlace? at hcurrent
    split at hcurrent
    · cases hcurrent
    split at hcurrent
    · cases hcurrent
      exact Nat.ne_of_gt innermostPlace_pos
    · cases hcurrent
      decide
  refine h.still ?_ (ScopeTable.outline_of_declare hd) ?_ (ScopeTable.current?_of_declare hd)
    (ScopeTable.compounds_of_declare hd)
  · intro c hmem
    refine not_standsAt_of_ne hx fun he => ?_
    rw [← he, hc] at hmem
    simp at hmem
  · rw [ScopeTable.getElem?_of_declare hd, if_neg hne]

end Steps

end MiniPascal
