import MiniPascal.Dictionary.Basic
import MiniPascal.Lexeme
import MiniPascal.Text.Normal

/-!
# From text to lexemes

Each word of the normal form of a text is a lexeme, except for the line breaks, which begin a new row.

* `tokenize`: the lexemes of a text.
-/

namespace MiniPascal

/-- The lexemes of a run of words that begins at the given place. -/
@[simp]
def placeWords (d : Dictionary) (p : Position) : List (List Char) → List Lexeme
  | [] => []
  | word :: rest =>
    if word = ['\n'] then placeWords d p.nextRow rest
    else ⟨String.ofList word, d.classify (String.ofList word), p⟩ :: placeWords d (p.advance word.length) rest

/-- The lexemes of a text. -/
def tokenize (d : Dictionary) (source : String) : List Lexeme :=
  placeWords d .start (words (normalize source).toList)

end MiniPascal
