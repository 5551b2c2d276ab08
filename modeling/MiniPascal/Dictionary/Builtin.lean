import MiniPascal.Dictionary.Basic

/-!
# The built-in dictionary

The words of the language where no table is given.
-/

namespace MiniPascal

/-- The dictionary that is used where no table is given. -/
def Dictionary.builtin : Dictionary where
  entries :=
    [(.programWord, ["program"]),
      (.varWord, ["var"]),
      (.typeWord, ["int", "float", "bool"]),
      (.beginWord, ["begin"]),
      (.endWord, ["end"]),
      (.comment, ["\x7b", "\x7d"]),
      (.comma, [","]),
      (.semicolon, [";"]),
      (.becomes, ["as", ":="]),
      (.compoundOpen, ["["]),
      (.compoundClose, ["]"]),
      (.conditional, ["if", "then", "else"]),
      (.whileWord, ["while"]),
      (.cycle, ["for", "to"]),
      (.doWord, ["do"]),
      (.readWord, ["read"]),
      (.writeWord, ["write"]),
      (.parenthesis, ["(", ")"]),
      (.relation, ["=", "<>", "<", ">", "<=", ">="]),
      (.logicalOr, ["or"]),
      (.logicalAnd, ["and"]),
      (.addition, ["+", "-"]),
      (.multiplication, ["*", "/"]),
      (.unary, ["not"])]

/-- The built-in table lists every category. -/
theorem Dictionary.ofEntries_builtin : Dictionary.ofEntries Dictionary.builtin.entries = .ok Dictionary.builtin :=
  rfl

end MiniPascal
