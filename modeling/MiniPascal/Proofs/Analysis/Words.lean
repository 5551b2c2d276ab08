import MiniPascal.Proofs.Analysis.Step

/-!
# The words of a program

Whether a lexeme stands in a comment can be told from the lexemes before it (`insideComment`), and the analysis agrees
(`isInside_of_reaches`). The lexemes outside comments are the words of the program (`wordAt?`): only they are shown to
the goals, and only they change the goals and the scope table. So what holds at first and is kept by every goal that
takes a word holds wherever a run gets (`invariant_of_words`).
-/

namespace MiniPascal

variable {program : List Lexeme} {index : Nat} {x : Lexeme}

/-- Whether a comment is open behind a lexeme. -/
def commentBehind (inside : Bool) (x : Lexeme) : Bool :=
  if inside then !x.is .comment closingMark else x.category = .comment && x.text ≠ closingMark

/-- Whether the lexeme of an index stands behind the opening mark of a comment and not behind its end. -/
def insideComment (program : List Lexeme) : Nat → Bool
  | 0 => false
  | index + 1 => program[index]?.elim (insideComment program index) (commentBehind (insideComment program index))

/-- The lexeme of an index if it stands outside comments. -/
def wordAt? (program : List Lexeme) (index : Nat) : Option Lexeme :=
  if insideComment program index then none else program[index]?.filter (·.category ≠ .comment)

theorem wordAt?_eq_some :
    wordAt? program index = some x ↔
      program[index]? = some x ∧ insideComment program index = false ∧ x.category ≠ .comment := by
  rw [wordAt?]
  split
  · simp [*]
  · simp [Option.filter_eq_some_iff, *]

theorem insideComment_succ (h : program[index]? = some x) :
    insideComment program (index + 1) = commentBehind (insideComment program index) x := by
  rw [insideComment, h, Option.elim_some]

/-! ## Comments in a run -/

/-- Whether a comment is open. -/
def Margin.isInside : Margin → Bool
  | .inside _ _ => true
  | .outside _ => false

theorem isInside_readInside (opening : Nat) (mark : String) (x : Lexeme) :
    (readInside opening mark index x).isInside = commentBehind true x := by
  rw [readInside]
  split
  · simp [*, commentBehind, Margin.isInside]
  · split <;> simp_all [commentBehind, Margin.isInside]

/-- The analysis knows whether a comment is open. -/
theorem isInside_of_reaches {s : State} (hi : index ≤ program.length) (h : Reaches program index s) :
    s.margin.isInside = insideComment program index := by
  refine invariant_of_step (P := fun index s => s.margin.isInside = insideComment program index) rfl ?_ hi h
  intro index x s s' hx hs hm
  rw [insideComment_succ hx, ← hs]
  cases hm with
  | skip hm => rw [isInside_readInside, hm, Margin.isInside]
  | comment hm hc hx => simp [hm, Margin.isInside, commentBehind, hc, hx]
  | goal hm hc _ _ _ => simp [hm, Margin.isInside, commentBehind, hc]

/-- The lexeme that a goal takes is a word. -/
theorem wordAt?_of_outside {s : State} {loose? : Option Nat} (hr : Reaches program index s)
    (hx : program[index]? = some x) (hm : s.margin = .outside loose?) (hc : x.category ≠ .comment) :
    wordAt? program index = some x := by
  have hi := (List.getElem?_eq_some_iff.mp hx).1
  have := isInside_of_reaches (Nat.le_of_lt hi) hr
  rw [hm, Margin.isInside] at this
  exact wordAt?_eq_some.mpr ⟨hx, this.symm, hc⟩

/-- The lexemes of comments are no words. -/
theorem wordAt?_of_inside {s : State} (hr : Reaches program index s) (hi : index ≤ program.length)
    (hm : s.margin.isInside = true) : wordAt? program index = none := by
  rw [wordAt?, ← isInside_of_reaches hi hr, hm, if_pos rfl]

theorem wordAt?_of_comment (hx : program[index]? = some x) (hc : x.category = .comment) :
    wordAt? program index = none := by
  rw [wordAt?, hx]
  split
  · rfl
  · simp [hc]

/-- A property of the goals and the scope table that holds at first and that every goal keeps when it takes a word
holds wherever a run gets. -/
theorem invariant_of_words {P : Nat → List Goal → ScopeTable → Prop} (h0 : P 0 [.programWord] .empty)
    (hquiet : ∀ {index : Nat} {goals : List Goal} {scope : ScopeTable}, wordAt? program index = none →
      P index goals scope → P (index + 1) goals scope)
    (hword : ∀ {index : Nat} {x : Lexeme} {loose? : Option Nat} {passed rest new : List Goal} {g : Goal}
      {scope scope' : ScopeTable}, wordAt? program index = some x → P index (passed ++ g :: rest) scope →
      PassAll scope ⟨index, loose?⟩ x passed → g.onLexeme scope ⟨index, loose?⟩ x = .take scope' new →
      P (index + 1) (new ++ rest) scope')
    {s : State} (hi : index ≤ program.length) (h : Reaches program index s) : P index s.goals s.scope := by
  induction index generalizing s with
  | zero =>
    cases h
    exact h0
  | succ index ih =>
    have hx := List.getElem?_eq_getElem (Nat.lt_of_succ_le hi)
    obtain ⟨r, hr, hs⟩ := (reaches_succ hx).mp h
    have hi : index ≤ program.length := by omega
    have hP := ih hi hr
    cases moves_of_step hs with
    | skip hm => exact hquiet (wordAt?_of_inside hr hi (by rw [hm, Margin.isInside])) hP
    | comment hm hc _ => exact hquiet (wordAt?_of_comment hx hc) hP
    | goal hm hc hg hp ht =>
      rw [read_of_reaches hi hr] at hp ht
      rw [hg] at hP
      exact hword (wordAt?_of_outside hr hx hm hc) hP hp ht

end MiniPascal
