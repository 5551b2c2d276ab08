import MiniPascal.DataType

/-!
# Identifiers

A name begins with a Latin or Cyrillic letter and goes on with such letters, digits and underscores. A word that is a
literal is no name.
-/

namespace MiniPascal

/-- A basic Latin letter, or a letter of the Russian alphabet. -/
def isLetter (c : Char) : Bool :=
  ('a' ≤ c && c ≤ 'z') || ('A' ≤ c && c ≤ 'Z') || ('А' ≤ c && c ≤ 'я') || c = 'Ё' || c = 'ё'

/-- A character that a name may hold behind its first letter. -/
def isNameChar (c : Char) : Bool :=
  isLetter c || c.isDigit || c = '_'

/-- Whether a word has the form of a name. -/
def hasNameForm : List Char → Bool
  | [] => false
  | c :: cs => isLetter c && cs.all isNameChar

/-- Whether a word may be declared: it has the form of a name and is no literal. -/
def isIdentifier (word : String) : Bool :=
  hasNameForm word.toList && (DataType.ofLiteral? word).isNone

theorem ofLiteral?_of_isIdentifier {word : String} (h : isIdentifier word) : DataType.ofLiteral? word = none := by
  rw [isIdentifier, Bool.and_eq_true, Option.isNone_iff_eq_none] at h
  exact h.2

end MiniPascal
