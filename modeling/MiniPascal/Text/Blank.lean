/-!
# Blank characters

The characters with the Unicode property `White_Space`, line breaks among them.

* `isBlank_of_isWhitespace`: the four of them that the core library knows are blank.
-/

namespace MiniPascal

/-- Whether a character has the property `White_Space`. -/
def isBlank (c : Char) : Bool :=
  let n := c.toNat
  (9 ≤ n && n ≤ 13) || n = 0x20 || n = 0x85 || n = 0xA0 || n = 0x1680 || (0x2000 ≤ n && n ≤ 0x200A) || n = 0x2028
    || n = 0x2029 || n = 0x202F || n = 0x205F || n = 0x3000

/-- What separates the lines of a text. -/
def isBreak (c : Char) : Bool :=
  c = '\n' || c = '\r'

theorem isBlank_of_isWhitespace {c : Char} (h : c.isWhitespace = true) : isBlank c = true := by
  simp only [Char.isWhitespace, Bool.or_eq_true, decide_eq_true_eq] at h
  rcases h with ((rfl | rfl) | rfl) | rfl <;> decide

theorem isBlank_of_isBreak {c : Char} (h : isBreak c = true) : isBlank c = true := by
  simp only [isBreak, Bool.or_eq_true, decide_eq_true_eq] at h
  rcases h with rfl | rfl <;> decide

end MiniPascal
