import MiniPascal.Category

/-!
# Lexemes

A lexeme is a word of a program with its category and the place where it stands. Rows count from one; the column of
a lexeme is one plus the number of characters of the lexemes before it on its row, so blanks do not count.

* `Lexeme.endOfInput`: what stands behind the last lexeme.
-/

namespace MiniPascal

/-- A place in a program. -/
structure Position where
  row : Nat
  col : Nat
  deriving DecidableEq

namespace Position

/-- The place of the first lexeme. -/
def start : Position := ⟨1, 1⟩

/-- The place `n` characters further on the same row. -/
def advance (p : Position) (n : Nat) : Position := ⟨p.row, p.col + n⟩

/-- The first place of the next row. -/
def nextRow (p : Position) : Position := ⟨p.row + 1, 1⟩

@[simp]
theorem advance_zero (p : Position) : p.advance 0 = p := rfl

end Position

/-- A word with its category and its place. -/
structure Lexeme where
  text : String
  category : Category
  position : Position
  deriving DecidableEq

namespace Lexeme

/-- Whether a lexeme has the given category and spelling. -/
def is (x : Lexeme) (category : Category) (text : String) : Bool :=
  x.category = category && x.text = text

/-- The empty lexeme right behind the last one, at the start if there is none. -/
def endOfInput : Option Lexeme → Lexeme
  | some last => ⟨"", .unclassified, last.position.advance last.text.length⟩
  | none => ⟨"", .unclassified, .start⟩

variable {x : Lexeme} {category : Category} {text : String}

theorem is_iff : x.is category text ↔ x.category = category ∧ x.text = text := by
  simp [is]

@[simp]
theorem is_of_eq (h : x.category = category) : x.is category text = decide (x.text = text) := by
  simp [is, h]

@[simp]
theorem is_of_ne (h : x.category ≠ category) : x.is category text = false := by
  simp [is, h]

end Lexeme

end MiniPascal
