import Mathlib.Data.Nat.Count
import MiniPascal.Proofs.Branches.Brackets
import MiniPascal.Scope.Basic

/-!
# The outline of the blocks

Which blocks a program has opened before a lexeme, and which of them is the current one, as told by its words alone:
the global block, that of the program, the body behind `begin`, and one for each bracket in the order of the brackets,
inside that of the innermost bracket that is open where it is opened, or inside the body.

* `outline`: the kinds of the blocks with the blocks around them.
* `currentPlace?`: the innermost open block.
* `opened_open`, `openBrackets_close`, `bracketOutline_other` and the like: one word further on, for `simp` where it is
  known whether a bracket stands there.
* `openBrackets_of_append`: around an open bracket the same brackets are open as when it was opened.
-/

namespace MiniPascal

variable {program : List Lexeme} {c : Category} {i j b : Nat}

/-! ## Words of a category -/

/-- Whether the lexeme of an index is a word of the given category. -/
def standsAt (program : List Lexeme) (c : Category) (i : Nat) : Prop :=
  (wordAt? program i).any (·.category = c) = true

instance : DecidablePred (standsAt program c) := fun _ => inferInstanceAs (Decidable (_ = true))

/-- Whether a word of the given category stands before an index. -/
def standsBefore (program : List Lexeme) (c : Category) (i : Nat) : Prop :=
  ∃ k < i, standsAt program c k

instance : DecidablePred (standsBefore program c) := fun i => inferInstanceAs (Decidable (∃ k < i, standsAt program c k))

theorem standsAt_iff {x : Lexeme} (hx : wordAt? program i = some x) : standsAt program c i ↔ x.category = c := by
  simp [standsAt, hx]

theorem exists_of_standsAt (h : standsAt program c i) : ∃ x, wordAt? program i = some x ∧ x.category = c := by
  simpa [standsAt, Option.any_eq_true] using h

theorem not_standsAt (hx : wordAt? program i = none) : ¬ standsAt program c i := by
  simp [standsAt, hx]

theorem lt_length_of_standsAt (h : standsAt program c i) : i < program.length := by
  obtain ⟨x, hx, _⟩ := exists_of_standsAt h
  exact (List.getElem?_eq_some_iff.mp (wordAt?_eq_some.mp hx).1).1

@[simp]
theorem not_standsBefore_zero : ¬ standsBefore program c 0 := by
  rintro ⟨k, hk, _⟩
  omega

@[simp]
theorem standsBefore_succ : standsBefore program c (i + 1) ↔ standsBefore program c i ∨ standsAt program c i := by
  constructor
  · rintro ⟨k, hk, h⟩
    rcases Nat.lt_succ_iff_lt_or_eq.mp hk with hk | rfl
    · exact .inl ⟨k, hk, h⟩
    · exact .inr h
  · rintro (⟨k, hk, h⟩ | h)
    · exact ⟨k, by omega, h⟩
    · exact ⟨i, by omega, h⟩

/-! ## The blocks -/

/-- The number of brackets opened before an index. -/
def opened (program : List Lexeme) (i : Nat) : Nat :=
  Nat.count (standsAt program .compoundOpen) i

/-- The number of brackets closed before an index. -/
def closed (program : List Lexeme) (i : Nat) : Nat :=
  Nat.count (standsAt program .compoundClose) i

@[simp]
theorem opened_open (h : standsAt program .compoundOpen i) : opened program (i + 1) = opened program i + 1 := by
  rw [opened, Nat.count_succ, if_pos h, opened]

@[simp]
theorem opened_other (h : ¬ standsAt program .compoundOpen i) : opened program (i + 1) = opened program i := by
  rw [opened, Nat.count_succ, if_neg h, Nat.add_zero, opened]

@[simp]
theorem closed_close (h : standsAt program .compoundClose i) : closed program (i + 1) = closed program i + 1 := by
  rw [closed, Nat.count_succ, if_pos h, closed]

@[simp]
theorem closed_other (h : ¬ standsAt program .compoundClose i) : closed program (i + 1) = closed program i := by
  rw [closed, Nat.count_succ, if_neg h, Nat.add_zero, closed]

/-- The place of the block of the program. -/
def programPlace : Nat := 1

/-- The place of the body between `begin` and `end`. -/
def bodyPlace : Nat := 2

/-- The place of the block that the bracket of an index opens: behind the body and the blocks of the brackets before. -/
def bracketPlace (program : List Lexeme) (b : Nat) : Nat :=
  bodyPlace + 1 + opened program b

/-- The place of the innermost block between `begin` and `end` that is open at an index. -/
def innermostPlace (program : List Lexeme) (i : Nat) : Nat :=
  match openBrackets program i with
  | [] => bodyPlace
  | b :: _ => bracketPlace program b

/-- The kinds of the blocks that brackets open before an index, with the blocks around them. -/
def bracketOutline (program : List Lexeme) : Nat → List (BlockKind × Option Nat)
  | 0 => []
  | i + 1 =>
    bracketOutline program i ++
      if standsAt program .compoundOpen i then [(.compound (opened program i + 1), some (innermostPlace program i))]
      else []

/-- The kinds of the blocks that are opened before an index, with the blocks around them. -/
def outline (program : List Lexeme) (i : Nat) : List (BlockKind × Option Nat) :=
  [(.global, none)] ++
    (if standsBefore program .programWord i then [(.program, some ScopeTable.global)] else []) ++
    (if standsBefore program .beginWord i then [(.body, some programPlace)] else []) ++ bracketOutline program i

/-- The place of the innermost block that is open at an index; outside `begin` and `end` it is that of the program. -/
def currentPlace? (program : List Lexeme) (i : Nat) : Option Nat :=
  if ¬ standsBefore program .programWord i then none
  else if standsBefore program .beginWord i ∧ ¬ standsBefore program .endWord i then some (innermostPlace program i)
  else some programPlace

/-! ## Open brackets -/

@[simp]
theorem openBrackets_open (h : standsAt program .compoundOpen i) :
    openBrackets program (i + 1) = i :: openBrackets program i := by
  obtain ⟨x, hx, hc⟩ := exists_of_standsAt h
  simp [openBrackets, bracketsBehind, hx, hc]

@[simp]
theorem openBrackets_close (h : standsAt program .compoundClose i) :
    openBrackets program (i + 1) = (openBrackets program i).tail := by
  obtain ⟨x, hx, hc⟩ := exists_of_standsAt h
  simp [openBrackets, bracketsBehind, hx, hc]

@[simp]
theorem openBrackets_other (ho : ¬ standsAt program .compoundOpen i) (hc : ¬ standsAt program .compoundClose i) :
    openBrackets program (i + 1) = openBrackets program i := by
  rw [openBrackets]
  cases hx : wordAt? program i with
  | none => rfl
  | some x =>
    rw [standsAt_iff hx] at ho hc
    exact bracketsBehind_some ho hc

/-- What stands below an open bracket was open before it. -/
theorem openBrackets_of_append {inner outer : List Nat} (h : openBrackets program i = inner ++ b :: outer) :
    openBrackets program b = outer ∧ standsAt program .compoundOpen b := by
  induction i generalizing inner with
  | zero => cases inner <;> cases h
  | succ i ih =>
    by_cases ho : standsAt program .compoundOpen i
    · rw [openBrackets_open ho] at h
      cases inner with
      | nil =>
        obtain ⟨rfl, rfl⟩ := List.cons.inj h
        exact ⟨rfl, ho⟩
      | cons a inner => exact ih (List.cons.inj h).2
    by_cases hc : standsAt program .compoundClose i
    · rw [openBrackets_close hc] at h
      cases hopen : openBrackets program i with
      | nil =>
        rw [hopen] at h
        cases inner <;> cases h
      | cons a brackets =>
        rw [hopen] at h
        exact ih (show openBrackets program i = (a :: inner) ++ b :: outer from hopen.trans (congrArg (a :: ·) h))
    · rw [openBrackets_other ho hc] at h
      exact ih h

theorem openBrackets_of_cons {outer : List Nat} (h : openBrackets program i = b :: outer) :
    openBrackets program b = outer ∧ standsAt program .compoundOpen b ∧ b < i := by
  obtain ⟨houter, hb⟩ := openBrackets_of_append (show openBrackets program i = [] ++ b :: outer from h)
  exact ⟨houter, hb, lt_of_mem_openBrackets (by rw [h]; exact List.mem_cons_self)⟩

theorem innermostPlace_congr (h : openBrackets program i = openBrackets program j) :
    innermostPlace program i = innermostPlace program j := by
  rw [innermostPlace, h, innermostPlace]

@[simp]
theorem innermostPlace_nil (h : openBrackets program i = []) : innermostPlace program i = bodyPlace := by
  rw [innermostPlace, h]

theorem innermostPlace_cons {outer : List Nat} (h : openBrackets program i = b :: outer) :
    innermostPlace program i = bracketPlace program b := by
  rw [innermostPlace, h]

theorem innermostPlace_pos : ScopeTable.global < innermostPlace program i := by
  have hpos : ∀ b, ScopeTable.global < bracketPlace program b := fun b => by
    simp only [ScopeTable.global, bracketPlace]
    omega
  unfold innermostPlace
  split
  · decide
  · exact hpos _

theorem opened_lt (h : standsAt program .compoundOpen b) (hlt : b < i) : opened program b < opened program i :=
  Nat.count_strict_mono h hlt

/-- The block of a bracket lies in one that is older. -/
theorem innermostPlace_lt_bracketPlace : innermostPlace program b < bracketPlace program b := by
  cases hopen : openBrackets program b with
  | nil =>
    rw [innermostPlace_nil hopen, bracketPlace]
    omega
  | cons a outer =>
    obtain ⟨_, ha, hlt⟩ := openBrackets_of_cons hopen
    have hopened := opened_lt ha hlt
    rw [innermostPlace_cons hopen, bracketPlace, bracketPlace]
    omega

/-! ## The outline of the brackets -/

@[simp]
theorem bracketOutline_open (h : standsAt program .compoundOpen i) : bracketOutline program (i + 1) =
    bracketOutline program i ++ [(.compound (opened program i + 1), some (innermostPlace program i))] := by
  rw [bracketOutline, if_pos h]

@[simp]
theorem bracketOutline_other (h : ¬ standsAt program .compoundOpen i) :
    bracketOutline program (i + 1) = bracketOutline program i := by
  rw [bracketOutline, if_neg h, List.append_nil]

@[simp]
theorem length_bracketOutline : (bracketOutline program i).length = opened program i := by
  induction i with
  | zero => rfl
  | succ i ih => by_cases h : standsAt program .compoundOpen i <;> simp [h, ih]

/-- The outline of a bracket stands behind those of the brackets before it. -/
theorem getElem?_bracketOutline (hb : standsAt program .compoundOpen b) (hlt : b < i) :
    (bracketOutline program i)[opened program b]? =
      some (.compound (opened program b + 1), some (innermostPlace program b)) := by
  induction i with
  | zero => omega
  | succ i ih =>
    rcases Nat.lt_succ_iff_lt_or_eq.mp hlt with hlt | rfl
    · have hlen : opened program b < (bracketOutline program i).length := by simpa using opened_lt hb hlt
      rw [bracketOutline, List.getElem?_append_left hlen]
      exact ih hlt
    · simp [hb]

end MiniPascal
