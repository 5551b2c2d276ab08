import MiniPascal.DataType

/-!
# Numbers in written texts

A number is written with digits alone, so where it stands at the start of a text with no digit behind it, it can be read
off again with what stands behind it (`takeNumber?_toString`). So equal texts that begin with numbers begin with equal ones
(`toString_append_inj`).
-/

namespace MiniPascal

variable {cs ds rest : List Char} {m n : Nat}

/-- The number at the start of a text, and what stands behind it. -/
def takeNumber? (cs : List Char) : Option (Nat × List Char) :=
  if (cs.takeWhile Char.isDigit).isEmpty then none
  else some (Nat.ofDigitChars 10 (cs.takeWhile Char.isDigit) 0, cs.dropWhile Char.isDigit)

/-- A text does not begin with a digit. -/
def Undigited (cs : List Char) : Prop :=
  ∀ c ∈ cs.head?, c.isDigit = false

theorem undigited_cons {c : Char} (hc : c.isDigit = false) (cs : List Char) : Undigited (c :: cs) := by
  rintro _ ⟨⟩
  exact hc

theorem isDigit_of_mem_toString {c : Char} (hc : c ∈ (toString n).toList) : c.isDigit = true := by
  rw [Nat.toString_eq_repr, Nat.toList_repr] at hc
  exact Nat.isDigit_of_mem_toDigits (by decide) (by decide) hc

/-- A written number begins with a digit. -/
theorem exists_digit_toString (n : Nat) : ∃ c digits, (toString n).toList = c :: digits ∧ c.isDigit = true := by
  have hne : (toString n).toList ≠ [] := by simp
  obtain ⟨c, digits, hdigits⟩ := List.exists_cons_of_ne_nil hne
  exact ⟨c, digits, hdigits, isDigit_of_mem_toString (hdigits ▸ List.mem_cons_self)⟩

/-- A number that is written out is read back, and nothing more. -/
theorem takeNumber?_toString (n : Nat) (hrest : Undigited rest) :
    takeNumber? ((toString n).toList ++ rest) = some (n, rest) := by
  have hdigits : ∀ c ∈ (toString n).toList, c.isDigit = true := fun c => isDigit_of_mem_toString
  have hbehind : rest.takeWhile Char.isDigit = [] ∧ rest.dropWhile Char.isDigit = rest := by
    cases rest with
    | nil => exact ⟨rfl, rfl⟩
    | cons c rest => simp [hrest c rfl]
  have hvalue : Nat.ofDigitChars 10 (toString n).toList 0 = n := by
    rw [Nat.toString_eq_repr, Nat.toList_repr, Nat.ofDigitChars_ten_toDigits]
  rw [takeNumber?, List.takeWhile_append_of_pos hdigits, List.dropWhile_append_of_pos hdigits, hbehind.1, hbehind.2,
    List.append_nil, if_neg (by simp), hvalue]

/-- Equal texts that begin with numbers begin with equal ones. -/
theorem toString_append_inj (hcs : Undigited cs) (hds : Undigited ds)
    (h : (toString m).toList ++ cs = (toString n).toList ++ ds) : m = n ∧ cs = ds := by
  have hread := congrArg takeNumber? h
  rw [takeNumber?_toString m hcs, takeNumber?_toString n hds] at hread
  cases hread
  exact ⟨rfl, rfl⟩

end MiniPascal
