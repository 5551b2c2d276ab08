/-!
# Columns of text

A column has a least width; what is shorter is padded with spaces, and what is longer keeps its length.
-/

namespace MiniPascal

/-- The spaces that bring a text to a width. -/
def padding (width : Nat) (s : String) : String :=
  String.ofList (List.replicate (width - s.length) ' ')

/-- A text at the right end of its column. -/
def alignRight (width : Nat) (s : String) : String :=
  padding width s ++ s

/-- A text at the left end of its column. -/
def alignLeft (width : Nat) (s : String) : String :=
  s ++ padding width s

end MiniPascal
