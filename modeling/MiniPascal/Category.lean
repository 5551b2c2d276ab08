/-!
# Categories of lexemes

A category is the role that a word plays in a program. A category table lists the words of each category under a
fixed key; a word that no table lists is *unclassified*: a name, a literal or nothing at all.

* `Category.key`: the key under which a table lists the words of a category.
* `Category.tabled`: the categories that a table has to list, in the order in which they are asked for.
* `Category.ofKey?`: the category of a key, `Category.ofKey?_key` and `tabled_of_ofKey?` its laws.
-/

namespace MiniPascal

/-- The role that a word plays in a program. -/
inductive Category where
  | programWord
  | varWord
  | typeWord
  | beginWord
  | endWord
  | comment
  | comma
  | semicolon
  | becomes
  | compoundOpen
  | compoundClose
  | conditional
  | whileWord
  | cycle
  | doWord
  | readWord
  | writeWord
  | parenthesis
  | relation
  | logicalOr
  | logicalAnd
  | addition
  | multiplication
  | unary
  | unclassified
  deriving DecidableEq, Inhabited

namespace Category

/-- The key under which a table lists the words of a category; what no table lists is written `wtf`. -/
def key : Category → String
  | programWord => "program"
  | varWord => "var"
  | typeWord => "data types"
  | beginWord => "begin"
  | endWord => "end"
  | comment => "comments"
  | comma => "comma"
  | semicolon => "semicolon"
  | becomes => "appropriation"
  | compoundOpen => "compound open"
  | compoundClose => "compound close"
  | conditional => "conditional"
  | whileWord => "conditional cycle"
  | cycle => "cycle"
  | doWord => "cycle do"
  | readWord => "read"
  | writeWord => "write"
  | parenthesis => "parenthesis"
  | relation => "relation"
  | logicalOr => "logical or"
  | logicalAnd => "logical and"
  | addition => "addition"
  | multiplication => "multiplication"
  | unary => "unary"
  | unclassified => "wtf"

/-- The categories that every table lists, in the order in which a missing one is reported. -/
def tabled : List Category :=
  [programWord, varWord, typeWord, beginWord, endWord, comment, comma, semicolon, becomes, compoundOpen,
    compoundClose, conditional, whileWord, cycle, doWord, readWord, writeWord, parenthesis, relation, logicalOr,
    logicalAnd, addition, multiplication, unary]

/-- The tabled category with the given key. -/
def ofKey? (key : String) : Option Category :=
  tabled.find? fun c => c.key = key

theorem mem_tabled {c : Category} : c ∈ tabled ↔ c ≠ unclassified := by
  cases c <;> decide

theorem key_injective {c d : Category} (h : c.key = d.key) : c = d := by
  cases c <;> cases d <;> first | rfl | (revert h; decide)

/-- A tabled category is found again under its key. -/
theorem ofKey?_key {c : Category} (h : c ∈ tabled) : ofKey? c.key = some c := by
  cases c <;> first | rfl | exact absurd h (by decide)

/-- What is found under a key is a tabled category with that key. -/
theorem tabled_of_ofKey? {key : String} {c : Category} (h : ofKey? key = some c) : c ∈ tabled ∧ c.key = key := by
  rw [ofKey?] at h
  have hkey := List.find?_some h
  exact ⟨List.mem_of_find?_eq_some h, of_decide_eq_true hkey⟩

end Category

end MiniPascal
