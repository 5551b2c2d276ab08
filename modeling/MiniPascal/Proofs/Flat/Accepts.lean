import MiniPascal.Proofs.Analysis.Turns
import MiniPascal.Proofs.Flat.Tree

/-!
# What an accepting run tells

An analysis that goes on without a breach accepts the lexemes that are left by the goals on its stack (`Accepts`). Where
neither brackets nor comments are left and no bracket is open (`Unbracketed`), the goal on top takes the next lexeme, or
it is met without it and the goals below accept the same lexemes (`Accepts.top`, `Accepts.take`,
`Accepts.take_or_rest`).

`Reads` says which words of a tree stand before the lexemes that are left; pieces that are read one behind the other are
put together by `exists_chain`, those of one goal that comes back by `Accepts.exists_pieces`.
-/

namespace MiniPascal

variable {t t' : ScopeTable} {x : Lexeme} {g : Goal} {new rest goals : List Goal}
  {input left more : List Lexeme} {ws ws' : List Word} {w : Word} {name : String} {depth : Nat}

/-! ## Tables without brackets -/

/-- A table shows frames none of which was opened by a bracket. -/
def ScopeTable.Unbracketed (t : ScopeTable) : Prop :=
  ∃ frames, t.Shows frames ∧ compoundsIn frames = 0

namespace ScopeTable.Unbracketed

theorem hasRoom_iff (h : t.Unbracketed) : t.hasRoom depth ↔ depth ≤ maxNesting := by
  obtain ⟨frames, ht, hzero⟩ := h
  rw [ht.hasRoom_iff, hzero, Nat.add_zero]

theorem inCompound (h : t.Unbracketed) : t.inCompound = false := by
  obtain ⟨frames, ht, hzero⟩ := h
  rw [ht.inCompound]
  cases frames with
  | nil => rfl
  | cons f rest =>
    have hnone : compoundsIn rest = 0 ∧ f.compound = false := by simpa using hzero
    simp [hnone]

/-- A variable that is known is named by an identifier. -/
theorem isIdentifier_of_find? (h : t.Unbracketed) (hknown : (t.find? name).isSome) : isIdentifier name := by
  obtain ⟨frames, ht, _⟩ := h
  obtain ⟨type, htype⟩ := Option.isSome_iff_exists.mp hknown
  rw [ht.find?] at htype
  obtain ⟨f, hf, hl⟩ := List.exists_of_findSome?_eq_some htype
  obtain ⟨before, after, hv, _⟩ := List.lookup_eq_some_iff.mp hl
  exact ht.identifiers hf (v := (name, type)) (by simp [hv])

/-- A lexeme that is no bracket opens none. -/
theorem alters (h : t.Unbracketed) (hx : x.category ∉ [.compoundOpen, .compoundClose]) (halters : Alters t x g t') :
    t'.Unbracketed := by
  obtain ⟨frames, ht, hzero⟩ := h
  obtain ⟨frames', ht', hturns⟩ := turns_of_alters ht halters
  refine ⟨frames', ht', ?_⟩
  cases hturns with
  | keep _ _ => exact hzero
  | program _ => simp
  | body _ => simpa using hzero
  | opening hx' => exact absurd hx' (by simp_all)
  | closing hx' _ => exact absurd hx' (by simp_all)
  | ending _ => exact Nat.eq_zero_of_le_zero (hzero ▸ compoundsIn_tail_le)
  | declare _ _ hf _ =>
    subst hf
    exact hzero

end ScopeTable.Unbracketed

/-! ## Stacks that accept -/

/-- The lexemes that are left hold neither comments nor brackets. -/
def Flat (input : List Lexeme) : Prop :=
  ∀ x ∈ input, x.category ∉ [.comment, .compoundOpen, .compoundClose]

/-- An analysis that awaits the goals outside brackets and comments reads all that is left without a breach. -/
structure Accepts (goals : List Goal) (input : List Lexeme) : Prop where
  flat : Flat input
  plain : ∀ g ∈ goals, g.Plain
  run : ∃ t n, t.Unbracketed ∧ (State.run ⟨goals, t, n, .outside none⟩ input).1 = none

/-- What the goal on top of an accepting stack does: it takes the next lexeme, lets it pass, or is met at the end of
the input. -/
inductive Accepts.Top (g : Goal) (rest : List Goal) (t : ScopeTable) (here : Place) : List Lexeme → Prop
  | take {x : Lexeme} {left : List Lexeme} {t' : ScopeTable} {new : List Goal}
      (ht : g.onLexeme t here x = .take t' new) (h : Accepts (new ++ rest) left) : Top g rest t here (x :: left)
  | pass {x : Lexeme} {left : List Lexeme} (hp : g.onLexeme t here x = .pass) (h : Accepts rest (x :: left)) :
      Top g rest t here (x :: left)
  | finish (he : g.onEnd t here = none) (h : Accepts rest []) : Top g rest t here []

theorem Accepts.top (h : Accepts (g :: rest) input) :
    ∃ t n, t.Unbracketed ∧ Accepts.Top g rest t ⟨n, none⟩ input := by
  obtain ⟨hflat, hplain, t, n, ht, hrun⟩ := h
  have hbelow : ∀ g ∈ rest, g.Plain := fun g' hg' => hplain g' (List.mem_cons_of_mem _ hg')
  refine ⟨t, n, ht, ?_⟩
  cases input with
  | nil =>
    obtain ⟨hg, hrest⟩ : g.onEnd t ⟨n, none⟩ = none ∧ complaint t ⟨n, none⟩ rest = none := by
      simpa [State.run, State.finish, complaint] using hrun
    exact .finish hg ⟨hflat, hbelow, t, n, ht, hrest⟩
  | cons x left =>
    have hx := hflat x List.mem_cons_self
    have hleft : Flat left := fun y hy => hflat y (List.mem_cons_of_mem _ hy)
    simp only [List.mem_cons, List.not_mem_nil, or_false, not_or] at hx
    cases hg : g.onLexeme t ⟨n, none⟩ x with
    | take t' new =>
      have htakes := takes_of_onLexeme hg
      have halters := alters_of_takes (hplain g List.mem_cons_self) htakes
      refine .take hg ⟨hleft, ?_, t', n + 1, ht.alters (by simp [hx]) halters, ?_⟩
      · intro g' hg'
        exact (List.mem_append.mp hg').elim (plain_of_takes htakes g') (hbelow g')
      · simpa [State.run, hx.1, hg] using hrun
    | pass =>
      refine .pass hg ⟨hflat, hbelow, t, n, ht, ?_⟩
      simpa [State.run, hx.1, hg] using hrun
    | refuse halt => simp [State.run, hx.1, hg] at hrun

/-- The goal on top takes the next lexeme, or the goals below accept what is left. -/
theorem Accepts.take_or_rest (h : Accepts (g :: rest) input) :
    (∃ t here x left t' new, t.Unbracketed ∧ input = x :: left ∧ g.Takes t here x t' new ∧
      Accepts (new ++ rest) left) ∨ Accepts rest input := by
  obtain ⟨t, n, ht, htop⟩ := h.top
  cases htop with
  | take hg hnew => exact .inl ⟨t, _, _, _, _, _, ht, rfl, takes_of_onLexeme hg, hnew⟩
  | pass _ hrest => exact .inr hrest
  | finish _ hrest => exact .inr hrest

/-- A goal that cannot be met without a lexeme takes one. -/
theorem Accepts.take (h : Accepts (g :: rest) input) (hg : g.passable = false) :
    ∃ t here x left t' new, t.Unbracketed ∧ input = x :: left ∧ g.Takes t here x t' new ∧
      Accepts (new ++ rest) left := by
  obtain ⟨t, n, ht, htop⟩ := h.top
  cases htop with
  | take hg hnew => exact ⟨t, _, _, _, _, _, ht, rfl, takes_of_onLexeme hg, hnew⟩
  | pass hp _ =>
    have := passable_of_onLexeme hp
    simp [hg] at this
  | finish he _ => cases g <;> simp_all [Goal.passable, Goal.onEnd]

/-- Nothing is left where nothing is awaited. -/
theorem Accepts.eq_nil (h : Accepts [] input) : input = [] := by
  obtain ⟨hflat, _, t, n, _, hrun⟩ := h
  cases input with
  | nil => rfl
  | cons x left =>
    have hx := hflat x List.mem_cons_self
    simp only [List.mem_cons, List.not_mem_nil, or_false, not_or] at hx
    simp [State.run, hx.1] at hrun

/-- Where the word `end` is awaited some lexeme is left. -/
theorem Accepts.ne_nil (h : Accepts goals input) (hend : .endWord ∈ goals) : input ≠ [] := by
  obtain ⟨_, _, t, n, _, hrun⟩ := h
  rintro rfl
  have hrun : complaint t ⟨n, none⟩ goals = none := hrun
  rw [complaint, List.findSome?_eq_none_iff] at hrun
  cases hrun _ hend

/-! ## Words that are read -/

/-- The words stand in the input before the lexemes that are left. -/
def Reads (input : List Lexeme) (ws : List Word) (left : List Lexeme) : Prop :=
  input.map (·.canonical) = ws ++ left.map (·.canonical)

namespace Reads

theorem refl (input : List Lexeme) : Reads input [] input := rfl

theorem cons (hx : x.canonical = w) (h : Reads input ws left) : Reads (x :: input) (w :: ws) left := by
  rw [Reads, List.map_cons, hx, h, List.cons_append]

theorem append (h : Reads input ws left) (h' : Reads left ws' more) : Reads input (ws ++ ws') more := by
  rw [Reads, h, h', List.append_assoc]

theorem length (h : Reads input ws left) : input.length = ws.length + left.length := by
  simpa using congrArg List.length h

end Reads

/-- What is read piece by piece is read as a list of pieces. -/
theorem exists_chain {α : Type} {P Q : List Lexeme → Prop} (piece : α → List Word) (proper : α → Bool)
    (hpiece : ∀ a, piece a ≠ [])
    (hstep : ∀ {input : List Lexeme}, P input →
      (∃ a left, proper a ∧ Reads input (piece a) left ∧ P left) ∨ Q input)
    (h : P input) : ∃ (as : List α) (left : List Lexeme), as.all proper ∧ Reads input (as.flatMap piece) left ∧ Q left := by
  induction hn : input.length using Nat.strongRecOn generalizing input with
  | ind n ih =>
    subst hn
    rcases hstep h with ⟨a, left, ha, hreads, hleft⟩ | hq
    · have hlt : left.length < input.length := by
        have := List.length_pos_iff.mpr (hpiece a)
        have := hreads.length
        omega
      obtain ⟨as, left', has, hreads', hq⟩ := ih _ hlt hleft rfl
      exact ⟨a :: as, left', by simp [ha, has], hreads.append hreads', hq⟩
    · exact ⟨[], input, rfl, .refl input, hq⟩

/-- A goal that comes back behind each piece that it takes reads a list of pieces. -/
theorem Accepts.exists_pieces {α : Type} (piece : α → List Word) (proper : α → Bool) (hpiece : ∀ a, piece a ≠ [])
    (htake : ∀ {t : ScopeTable} {here : Place} {x : Lexeme} {left : List Lexeme} {t' : ScopeTable} {new : List Goal},
      g.Takes t here x t' new → Accepts (new ++ rest) left →
        ∃ a left', proper a ∧ Reads (x :: left) (piece a) left' ∧ Accepts (g :: rest) left')
    (h : Accepts (g :: rest) input) :
    ∃ (as : List α) (left : List Lexeme), as.all proper ∧ Reads input (as.flatMap piece) left ∧ Accepts rest left := by
  refine exists_chain (P := Accepts (g :: rest)) piece proper hpiece ?_ h
  intro input h
  refine h.take_or_rest.imp_left ?_
  rintro ⟨t, here, x, left, t', new, _, rfl, htakes, hnew⟩
  exact htake htakes hnew

end MiniPascal
