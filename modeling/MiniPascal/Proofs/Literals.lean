import Mathlib.Data.List.TakeWhile
import MiniPascal.DataType

/-!
# Literals and their types

No word is a literal of two types (`eq_of_acceptsLiteral`), so the type that is found first is the only one
(`ofLiteral?_eq_some_iff`).
-/

namespace MiniPascal.DataType

theorem isDecimal_of_isNumeral {cs : List Char} (h : isNumeral cs) : isDecimal cs = false := by
  rw [isNumeral, Bool.and_eq_true, List.all_eq_true] at h
  have hdrop : cs.dropWhile Char.isDigit = [] := List.dropWhile_eq_nil_iff.mpr h.2
  simp only [isDecimal, hdrop]

/-- No word is a literal of two types. -/
theorem eq_of_acceptsLiteral {s t : DataType} {word : String} (hs : s.acceptsLiteral word) (ht : t.acceptsLiteral word) :
    s = t := by
  have htruth : ∀ text ∈ ["true", "false"], ¬ isNumeral text.toList ∧ ¬ isDecimal text.toList := by decide
  have hbool (h : bool.acceptsLiteral word) : word ∈ ["true", "false"] := by simpa [acceptsLiteral] using h
  cases s with
  | int =>
    cases t with
    | int => rfl
    | float => simp [acceptsLiteral, isDecimal_of_isNumeral hs] at ht
    | bool => exact absurd hs (htruth word (hbool ht)).1
  | float =>
    cases t with
    | int => simp [acceptsLiteral, isDecimal_of_isNumeral ht] at hs
    | float => rfl
    | bool => exact absurd hs (htruth word (hbool ht)).2
  | bool =>
    cases t with
    | int => exact absurd ht (htruth word (hbool hs)).1
    | float => exact absurd ht (htruth word (hbool hs)).2
    | bool => rfl

/-- The type that a word is found to be a literal of is the only one of which it is. -/
theorem ofLiteral?_eq_some_iff {type : DataType} {word : String} :
    ofLiteral? word = some type ↔ type.acceptsLiteral word := by
  constructor
  · intro h
    simpa using List.find?_some h
  · intro h
    cases hfound : ofLiteral? word with
    | none =>
      rw [ofLiteral?, List.find?_eq_none] at hfound
      exact absurd h (hfound type (by cases type <;> simp))
    | some found =>
      have haccepts : found.acceptsLiteral word := by simpa using List.find?_some hfound
      rw [eq_of_acceptsLiteral haccepts h]

end MiniPascal.DataType
