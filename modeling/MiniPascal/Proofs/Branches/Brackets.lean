import MiniPascal.Proofs.Analysis.Words

/-!
# Brackets

The compound brackets of a program, outside comments.

* `openBrackets`: the brackets that are open before a lexeme, the innermost first.
* `Balanced`: between two lexemes every bracket that is opened is closed again, and none from before is closed.
* `balanced_iff`: if no bracket is closed that was not opened, these are the lexemes before which the same brackets are
  open.
-/

namespace MiniPascal

variable {program : List Lexeme} {i j n opened : Nat}

/-- The open brackets behind the lexeme of an index, if it is a word. -/
def bracketsBehind (index : Nat) (word? : Option Lexeme) (brackets : List Nat) : List Nat :=
  match word?.map Lexeme.category with
  | some .compoundOpen => index :: brackets
  | some .compoundClose => brackets.tail
  | _ => brackets

/-- The indices of the brackets that are open before the lexeme of an index, the innermost first. -/
def openBrackets (program : List Lexeme) : Nat → List Nat
  | 0 => []
  | index + 1 => bracketsBehind index (wordAt? program index) (openBrackets program index)

/-- The number of brackets opened and not closed again behind a word; there is none where one from before is closed. -/
def openedBehind? (word? : Option Lexeme) (opened : Nat) : Option Nat :=
  match word?.map Lexeme.category with
  | some .compoundOpen => some (opened + 1)
  | some .compoundClose => if opened = 0 then none else some (opened - 1)
  | _ => some opened

/-- The number of brackets opened and not closed again in so many lexemes from an index on. -/
def openedFrom? (program : List Lexeme) (index : Nat) : Nat → Option Nat
  | 0 => some 0
  | n + 1 => (openedFrom? program index n).bind (openedBehind? (wordAt? program (index + n)))

/-- Between two lexemes every bracket that is opened is closed again, and none from before is closed. -/
def Balanced (program : List Lexeme) (i j : Nat) : Prop :=
  openedFrom? program i (j - i) = some 0

instance (program : List Lexeme) (i j : Nat) : Decidable (Balanced program i j) :=
  inferInstanceAs (Decidable (openedFrom? program i (j - i) = some 0))

/-- Where the lexeme of an index closes a bracket, one is open. -/
def ClosesOpened (program : List Lexeme) (i : Nat) : Prop :=
  ∀ x, wordAt? program i = some x → x.category = .compoundClose → openBrackets program i ≠ []

/-! ## Open brackets -/

theorem bracketsBehind_some {x : Lexeme} {brackets : List Nat} (ho : x.category ≠ .compoundOpen)
    (hc : x.category ≠ .compoundClose) : bracketsBehind n (some x) brackets = brackets := by
  unfold bracketsBehind
  split
  · exact absurd (Option.some.inj ‹_›) ho
  · exact absurd (Option.some.inj ‹_›) hc
  · rfl

theorem mem_bracketsBehind {b : Nat} {word? : Option Lexeme} {brackets : List Nat}
    (h : b ∈ bracketsBehind n word? brackets) : b = n ∨ b ∈ brackets := by
  unfold bracketsBehind at h
  split at h
  · exact List.mem_cons.mp h
  · exact .inr (List.mem_of_mem_tail h)
  · exact .inr h

theorem lt_of_mem_openBrackets {b : Nat} (h : b ∈ openBrackets program i) : b < i := by
  induction i with
  | zero => cases h
  | succ i ih =>
    rcases mem_bracketsBehind h with rfl | h
    · omega
    · have := ih h
      omega

theorem nodup_openBrackets : (openBrackets program i).Nodup := by
  induction i with
  | zero => exact List.nodup_nil
  | succ i ih =>
    rw [openBrackets, bracketsBehind]
    split
    · refine List.nodup_cons.mpr ⟨?_, ih⟩
      intro h
      have := lt_of_mem_openBrackets h
      omega
    · exact ih.sublist (List.tail_sublist _)
    · exact ih

/-! ## Balanced brackets -/

/-- The brackets opened from an index on stand above those from before. -/
theorem openBrackets_of_openedFrom? (h : openedFrom? program i n = some opened) :
    ∃ new, openBrackets program (i + n) = new ++ openBrackets program i ∧ new.length = opened := by
  induction n generalizing opened with
  | zero =>
    cases h
    exact ⟨[], rfl, rfl⟩
  | succ n ih =>
    obtain ⟨before, hb, h⟩ := Option.bind_eq_some_iff.mp h
    obtain ⟨new, hnew, hlen⟩ := ih hb
    rw [← Nat.add_assoc, openBrackets, hnew]
    unfold openedBehind? at h
    unfold bracketsBehind
    split at h
    case h_1 =>
      cases h
      exact ⟨(i + n) :: new, rfl, by rw [List.length_cons, hlen]⟩
    case h_2 =>
      rw [Option.ite_none_left_eq_some, Option.some.injEq] at h
      obtain ⟨hne, rfl⟩ := h
      cases new with
      | nil => exact absurd hlen.symm hne
      | cons b new =>
        rw [List.length_cons] at hlen
        exact ⟨new, rfl, by omega⟩
    case h_3 =>
      cases h
      exact ⟨new, rfl, hlen⟩

/-- Where a bracket from before has been closed, it is not open any more. -/
theorem exists_closed_of_openedFrom? (hc : ∀ k < i + n, ClosesOpened program k) (h : openedFrom? program i n = none) :
    ∃ b ∈ openBrackets program i, b ∉ openBrackets program (i + n) := by
  induction n with
  | zero => cases h
  | succ n ih =>
    cases hb : openedFrom? program i n with
    | none =>
      obtain ⟨b, hmem, hnot⟩ := ih (fun k hk => hc k (by omega)) hb
      refine ⟨b, hmem, ?_⟩
      intro hmem'
      have hlt := lt_of_mem_openBrackets hmem
      have hmem' : b = i + n ∨ b ∈ openBrackets program (i + n) := mem_bracketsBehind hmem'
      rcases hmem' with he | hmem'
      · omega
      · exact hnot hmem'
    | some opened =>
      rw [openedFrom?, hb, Option.bind_some] at h
      unfold openedBehind? at h
      split at h
      case h_1 => cases h
      case h_3 => cases h
      case h_2 hx =>
        obtain ⟨x, hword, hx⟩ := Option.map_eq_some_iff.mp hx
        split at h
        case isFalse => cases h
        case isTrue hzero =>
          obtain ⟨new, hnew, hlen⟩ := openBrackets_of_openedFrom? hb
          obtain rfl : new = [] := List.length_eq_zero_iff.mp (hlen.trans hzero)
          have hne := hc (i + n) (by omega) x hword hx
          have hnodup : (openBrackets program (i + n)).Nodup := nodup_openBrackets
          rw [← Nat.add_assoc, openBrackets, bracketsBehind, hword, Option.map_some, hx]
          rw [hnew, List.nil_append] at hne hnodup ⊢
          cases hbrackets : openBrackets program i with
          | nil => exact absurd hbrackets hne
          | cons b brackets =>
            rw [hbrackets] at hnodup
            exact ⟨b, List.mem_cons_self, (List.nodup_cons.mp hnodup).1⟩

/-- Brackets are balanced between the lexemes before which the same brackets are open. -/
theorem balanced_iff (hij : i ≤ j) (hc : ∀ k < j, ClosesOpened program k) :
    Balanced program i j ↔ openBrackets program i = openBrackets program j := by
  have hj : i + (j - i) = j := by omega
  constructor
  · intro h
    obtain ⟨new, hnew, hlen⟩ := openBrackets_of_openedFrom? h
    rw [List.length_eq_zero_iff.mp hlen, hj] at hnew
    exact hnew.symm
  · intro h
    cases ho : openedFrom? program i (j - i) with
    | none =>
      obtain ⟨b, hmem, hnot⟩ := exists_closed_of_openedFrom? (fun k hk => hc k (by omega)) ho
      rw [hj, ← h] at hnot
      exact absurd hmem hnot
    | some opened =>
      obtain ⟨new, hnew, rfl⟩ := openBrackets_of_openedFrom? ho
      rw [hj, h] at hnew
      obtain rfl : new = [] := List.self_eq_append_left.mp hnew
      exact ho

end MiniPascal
