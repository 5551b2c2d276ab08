import MiniPascal.Json.Fault

/-!
# JSON strings

A string is read one character at a time, from behind its opening quote to its closing one. An escape of four
hexadecimal digits stands for a UTF-16 unit; a unit that leads a surrogate pair has to be followed by the escape of
one that trails, and no unit trails on its own.

* `TextState.step`: one character is read.
* `TextState.text`: the characters that the string stands for.
-/

namespace MiniPascal.Json

/-- What has been read of an escape, if anything. -/
inductive Escape where
  /-- The last character stands for itself or ends an escape. -/
  | none
  /-- A backslash. -/
  | begun
  /-- The start of a unit with some of its digits, perhaps behind a unit that leads a pair. -/
  | unit (lead? : Option Nat) (digits : List Char)
  /-- A unit that leads a pair. -/
  | lead (unit : Nat)
  /-- A unit that leads a pair, and a backslash. -/
  | leadBegun (unit : Nat)
  deriving DecidableEq

/-- A string as far as it has been read, the last character first. -/
structure TextState where
  reversed : List Char
  escape : Escape
  deriving DecidableEq

/-- What a character does to a string. -/
inductive TextStep where
  /-- The string goes on. -/
  | more (state : TextState)
  /-- The string ends, and this is what it stands for. -/
  | closed (text : String)
  | fault (fault : Fault)
  deriving DecidableEq

/-! ## Escapes -/

/-- The character that an escape of one letter stands for. -/
def shortEscape? : Char → Option Char
  | '"' => some '"'
  | '\\' => some '\\'
  | '/' => some '/'
  | 'b' => some '\x08'
  | 'f' => some '\x0c'
  | 'n' => some '\n'
  | 'r' => some '\r'
  | 't' => some '\t'
  | _ => none

/-- The value of a hexadecimal digit. -/
def hexDigit? (c : Char) : Option Nat :=
  if '0' ≤ c ∧ c ≤ '9' then some (c.toNat - '0'.toNat)
  else if 'a' ≤ c ∧ c ≤ 'f' then some (c.toNat - 'a'.toNat + 10)
  else if 'A' ≤ c ∧ c ≤ 'F' then some (c.toNat - 'A'.toNat + 10)
  else none

/-- The value of four hexadecimal digits. -/
def unit? : List Char → Option Nat
  | [a, b, c, d] => do
    let a ← hexDigit? a
    let b ← hexDigit? b
    let c ← hexDigit? c
    let d ← hexDigit? d
    return ((a * 16 + b) * 16 + c) * 16 + d
  | _ => none

/-- The number of bytes that characters take in UTF-8. -/
def utf8Length : List Char → Nat
  | [] => 0
  | c :: cs => c.utf8Size + utf8Length cs

/-- Whether a unit leads a surrogate pair. -/
def isLead (unit : Nat) : Bool := 0xD800 ≤ unit && unit < 0xDC00

/-- Whether a unit trails in a surrogate pair. -/
def isTrail (unit : Nat) : Bool := 0xDC00 ≤ unit && unit < 0xE000

/-- The character of a surrogate pair. -/
def ofPair (lead trail : Nat) : Char :=
  Char.ofNat (0x10000 + (lead - 0xD800) * 0x400 + (trail - 0xDC00))

/-! ## Reading -/

namespace TextState

/-- The string before its first character. -/
def empty : TextState := ⟨[], .none⟩

/-- The characters that the string stands for so far. -/
def text (s : TextState) : String :=
  String.ofList s.reversed.reverse

/-- Adds a character and ends the escape. -/
def add (s : TextState) (c : Char) : TextStep :=
  .more ⟨c :: s.reversed, .none⟩

/-- Waits for the rest of an escape. -/
def await (s : TextState) (escape : Escape) : TextStep :=
  .more { s with escape }

/-- Ends the escape of a unit, given the unit that leads it. -/
def endUnit (s : TextState) (lead? : Option Nat) (unit : Nat) : TextStep :=
  match lead? with
  | some lead => if isTrail unit then s.add (ofPair lead unit) else .fault .notJson
  | none =>
    if isTrail unit then .fault .notJson
    else if isLead unit then s.await (.lead unit)
    else s.add (Char.ofNat unit)

/-- Reads a digit of a unit. They are judged once they fill four bytes: until then the text may just be cut short. -/
def stepUnit (s : TextState) (lead? : Option Nat) (digits : List Char) : TextStep :=
  if utf8Length digits < 4 then s.await (.unit lead? digits)
  else
    match unit? digits with
    | some unit => s.endUnit lead? unit
    | none => .fault .notJson

/-- Reads one character. -/
def step (s : TextState) (c : Char) : TextStep :=
  match s.escape with
  | .none =>
    if c = '"' then .closed s.text
    else if c = '\\' then s.await .begun
    else if c.toNat < 0x20 then .fault .notJson
    else s.add c
  | .begun =>
    if c = 'u' then s.await (.unit none [])
    else
      match shortEscape? c with
      | some e => s.add e
      | none => .fault .notJson
  | .unit lead? digits => s.stepUnit lead? (digits ++ [c])
  | .lead unit => if c = '\\' then s.await (.leadBegun unit) else .fault .notJson
  | .leadBegun unit => if c = 'u' then s.await (.unit (some unit) []) else .fault .notJson

end TextState

end MiniPascal.Json
