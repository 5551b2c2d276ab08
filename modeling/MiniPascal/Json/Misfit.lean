import MiniPascal.Json.Text

/-!
# Values that have the wrong type

A value that has the wrong type for its place is refused as soon as that is known: a list or an object at its opening
bracket, any other value once its token has been read. So a broken token is a fault of its own, and so is a number
beyond the largest double.

* `misfit`: what is wrong with a text that begins with such a value.
-/

namespace MiniPascal.Json

/-! ## Numbers -/

/-- The significand of a numeral in 64 bits, and how many digits of it were taken and left out. -/
structure Significand where
  value : Nat
  taken : Nat
  dropped : Nat
  deriving DecidableEq

/-- Appends a digit to a significand, unless one was left out before or the value would outgrow 64 bits. -/
def Significand.push (s : Significand) (digit : Char) : Significand :=
  let value := s.value * 10 + (digit.toNat - '0'.toNat)
  if s.dropped = 0 ∧ value < Nat.pow 2 64 then ⟨value, s.taken + 1, 0⟩ else { s with dropped := s.dropped + 1 }

/-- Appends digits to a value. -/
def Significand.read (value : Nat) (digits : List Char) : Significand :=
  digits.foldl Significand.push ⟨value, 0, 0⟩

/-- The double next to a natural number, ties going to the even significand. -/
def nearestDouble (n : Nat) : Nat :=
  if n < Nat.pow 2 53 then n
  else
    let unit := Nat.pow 2 (n.log2 - 52)
    let low := n / unit
    let rest := n % unit
    if rest * 2 < unit ∨ (rest * 2 = unit ∧ low % 2 = 0) then low * unit else (low + 1) * unit

/-- Every product from here on rounds to an infinite double. -/
def doubleOverflow : Nat := Nat.pow 2 1024 - Nat.pow 2 970

/-- Whether a significand times a power of ten has no finite double. -/
def isTooLarge (significand : Nat) (exponent : Int) : Bool :=
  significand ≠ 0 && 0 ≤ exponent
    && (308 < exponent || doubleOverflow ≤ nearestDouble significand * nearestDouble (Nat.pow 10 exponent.toNat))

/-- What is wrong with a number that has been read. -/
def numberFault (significand : Nat) (exponent : Int) : Fault :=
  if isTooLarge significand exponent then .notJson else .wrongShape

/-- What is wrong where digits have to follow and none does. -/
def digitsFault (rest : List Char) : Fault :=
  if rest.isEmpty then .truncated else .notJson

/-- What is wrong with a number, read up to its exponent. -/
def exponentFault (significand : Nat) (scale : Int) (cs : List Char) : Fault :=
  match cs with
  | [] => numberFault significand scale
  | c :: rest =>
    if c ≠ 'e' ∧ c ≠ 'E' then numberFault significand scale
    else
      let digits := if rest.head? = some '+' ∨ rest.head? = some '-' then rest.tail else rest
      if (digits.takeWhile Char.isDigit).isEmpty then digitsFault digits
      else
        let size := (digits.takeWhile Char.isDigit).foldl (fun n d => n * 10 + (d.toNat - '0'.toNat)) 0
        numberFault significand (if rest.head? = some '-' then scale - size else scale + size)

/-- What is wrong with a number, read up to its fraction. -/
def fractionFault (whole : Significand) (cs : List Char) : Fault :=
  match cs with
  | '.' :: rest =>
    if (rest.takeWhile Char.isDigit).isEmpty then digitsFault rest
    else
      let all := Significand.read whole.value (rest.takeWhile Char.isDigit)
      exponentFault all.value (whole.dropped - all.taken) (rest.dropWhile Char.isDigit)
  | _ => exponentFault whole.value whole.dropped cs

/-- What is wrong with a number, read up to its first digit. A zero in front of another digit is no number. -/
def wholeFault (cs : List Char) : Fault :=
  let digits := cs.takeWhile Char.isDigit
  if digits.isEmpty then digitsFault cs
  else if digits.head? = some '0' ∧ digits.length ≠ 1 then .notJson
  else fractionFault (Significand.read 0 digits) (cs.dropWhile Char.isDigit)

/-! ## Words and strings -/

/-- What is wrong with a word that has to be the given one. -/
def wordFault : List Char → List Char → Fault
  | [], _ => .wrongShape
  | _ :: _, [] => .truncated
  | a :: word, c :: rest => if a = c then wordFault word rest else .notJson

/-- What is wrong with a string, read up to the given state. -/
def textFault (s : TextState) : List Char → Fault
  | [] => .truncated
  | c :: rest =>
    match s.step c with
    | .more next => textFault next rest
    | .closed _ => .wrongShape
    | .fault f => f

/-! ## All values -/

/-- What is wrong with a text that begins with a value of a type that its place does not admit. -/
def misfit : List Char → Fault
  | [] => .truncated
  | c :: rest =>
    if c = 'n' then wordFault "ull".toList rest
    else if c = 't' then wordFault "rue".toList rest
    else if c = 'f' then wordFault "alse".toList rest
    else if c = '-' then wholeFault rest
    else if c.isDigit then wholeFault (c :: rest)
    else if c = '"' then textFault .empty rest
    else if c = '[' ∨ c = '\x7b' then .wrongShape
    else .notJson

end MiniPascal.Json
