import MiniPascal.Proofs.Analysis.Turns
import MiniPascal.Proofs.Blocks.Outline

/-!
# The stages of a run

The goals on the stack tell how far a program has been read: to its header, to its declarations, into its body, or
behind its `end` (`Stage`). Between `begin` and `end` the lowest goal is that of an operator outside all statements,
which lets an `end` pass only outside brackets (`Outermost.outside_of_pass`). So a word that opens or closes a block is
taken in the stage where it belongs (`stage_of_reaches`).
-/

namespace MiniPascal

variable {program : List Lexeme} {i : Nat} {t t' : ScopeTable} {here : Place} {x : Lexeme} {g : Goal}
  {goals new : List Goal}

/-! ## Goals of a stage -/

/-- Whether a goal belongs to the declarations between the header and `begin`. -/
def Goal.declares : Goal → Bool
  | .variableLists | .typeName | .variableName _ | .moreVariables _ => true
  | _ => false

/-- Whether a goal belongs to an operator. -/
def Goal.inner : Goal → Bool
  | .programWord | .variableLists | .beginWord | .moreOperators | .endWord => false
  | _ => true

/-- A goal of an operator that stands in no statement. -/
def Goal.Outermost (g : Goal) : Prop :=
  g = .operator .outermost ∨ g = .moreStatements .outermost

theorem declares_of_takes (hg : g.declares) (h : g.Takes t here x t' new) :
    (∀ g' ∈ new, g'.declares) ∧ x.category ∉ blockWords := by
  cases h with
  | typeName htype =>
    rw [Lexeme.namedType?_eq_some_iff] at htype
    exact ⟨by simp [Goal.declares], by simp [htype.1]⟩
  | variableLists hx | variableName hx _ | comma hx | semicolon hx =>
    exact ⟨by simp [Goal.declares], by simp [hx]⟩
  | _ => cases hg

theorem inner_of_begins {context : Context} (h : Begins t x context t' new) : ∀ g' ∈ new, g'.inner := by
  cases h <;> simp [Goal.inner]

theorem inner_of_takes (hg : g.inner) (h : g.Takes t here x t' new) : ∀ g' ∈ new, g'.inner := by
  cases h with
  | operator hb | moreStatements hb => exact inner_of_begins hb
  | programWord | variableLists | beginWord | moreOperators | endWord => cases hg
  | _ => simp [Goal.inner]

/-- The goals of a statement end with those of its operator. -/
theorem exists_last_of_begins {context : Context} (h : Begins t x context t' new) :
    ∃ above last, new = above ++ [last] ∧ (last = .operator context ∨ last = .moreStatements context) := by
  cases h with
  | var => exact ⟨[.typeName], _, rfl, .inl rfl⟩
  | opening => exact ⟨[.room context.depth], _, rfl, .inr rfl⟩
  | closing => exact ⟨[], _, rfl, .inr rfl⟩
  | assign => exact ⟨[_], _, rfl, .inr rfl⟩
  | whileDo | forDo | read | write | conditional => exact ⟨_, _, rfl, .inr rfl⟩

namespace Goal.Outermost

theorem exists_last (hg : g.Outermost) (h : g.Takes t here x t' new) :
    ∃ above last, new = above ++ [last] ∧ last.Outermost := by
  rcases hg with rfl | rfl
  · cases h with
    | operator hb => exact exists_last_of_begins hb
  · cases h with
    | moreStatements hb => exact exists_last_of_begins hb

theorem inner (hg : g.Outermost) : g.inner := by
  rcases hg with rfl | rfl <;> rfl

/-- The `end` passes outside brackets only. -/
theorem outside_of_pass (hg : g.Outermost) (hx : x.category = .endWord) (h : g.onLexeme t here x = .pass) :
    t.inCompound = false := by
  cases hin : t.inCompound with
  | false => rfl
  | true =>
    have hbegin : beginStatement t here x .outermost ≠ .pass := by
      unfold beginStatement
      rw [hx, hin]
      split <;> nofun
    rcases hg with rfl | rfl
    · exact absurd h hbegin
    · rw [Goal.onLexeme, if_pos hin] at h
      exact absurd h hbegin

end Goal.Outermost

/-! ## Words that were passed -/

/-- Which of the header, the `begin` and the `end` stand before an index. -/
structure Passed (program : List Lexeme) (i : Nat) (header begun ended : Bool) : Prop where
  header : standsBefore program .programWord i ↔ header = true
  begun : standsBefore program .beginWord i ↔ begun = true
  ended : standsBefore program .endWord i ↔ ended = true

section Passed

variable {header begun ended : Bool}

theorem passed_zero : Passed program 0 false false false := by
  constructor <;> simp

theorem Passed.quiet (h : Passed program i header begun ended) (hx : wordAt? program i = none) :
    Passed program (i + 1) header begun ended := by
  constructor <;> simp [not_standsAt hx, h.header, h.begun, h.ended]

theorem Passed.succ (h : Passed program i header begun ended) (hx : wordAt? program i = some x) :
    Passed program (i + 1) (header || x.category = .programWord) (begun || x.category = .beginWord)
      (ended || x.category = .endWord) := by
  constructor <;> simp [standsAt_iff hx, h.header, h.begun, h.ended]

/-- A word that opens and closes no block passes none of them. -/
theorem Passed.keep (h : Passed program i header begun ended) (hx : wordAt? program i = some x)
    (hc : x.category ∉ [.programWord, .beginWord, .endWord]) : Passed program (i + 1) header begun ended := by
  have h := h.succ hx
  simp only [List.mem_cons, List.not_mem_nil, or_false, not_or] at hc
  simpa [hc] using h

end Passed

/-! ## Stages -/

/-- The body has begun before an index, where no bracket is open. -/
def BegunAt (program : List Lexeme) (i b : Nat) : Prop :=
  b < i ∧ standsAt program .beginWord b ∧ openBrackets program b = []

/-- How far a program has been read. -/
inductive Stage (program : List Lexeme) (i : Nat) : List Goal → Prop
  | heading (hp : Passed program i false false false) (ho : opened program i = 0)
      (hn : openBrackets program i = []) : Stage program i [.programWord]
  | declaring (above : List Goal) (habove : ∀ g ∈ above, g.declares) (hp : Passed program i true false false)
      (ho : opened program i = 0) (hn : openBrackets program i = []) : Stage program i (above ++ [.beginWord])
  | body (above : List Goal) {last : Goal} {b : Nat} (habove : ∀ g ∈ above, g.inner) (hlast : last.Outermost)
      (hp : Passed program i true true false) (hb : BegunAt program i b) :
      Stage program i (above ++ last :: [.moreOperators, .endWord])
  | done {b e : Nat} (hp : Passed program i true true true) (hn : openBrackets program i = [])
      (hb : BegunAt program e b) (he : e < i) (hend : standsAt program .endWord e)
      (hne : openBrackets program e = []) : Stage program i []

end MiniPascal
