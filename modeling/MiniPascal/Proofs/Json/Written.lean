/-!
# Written forms in JSON

JSON leaves a choice in almost every place: blanks may stand between tokens, and a character of a string may stand for
itself or be written as an escape, by a letter or by its UTF-16 units. What may be written for a value is a relation,
therefore, between the value and the characters; it says nothing of how a text is read.

* `CharWritten`, `TextWritten`, `StringWritten`: a character, several of them, and a string with its quotes.
* `Listed`, `Enclosed`: values behind one another with commas between them, and in brackets.
* `printUnits`, `printChar`, `printString`, `printListed`: some written forms (`stringWritten_print`, `enclosed_print`), so
  that none of the relations is empty.
-/

namespace MiniPascal.Json

/-! ## Strings -/

/-- Characters that may stand between tokens. -/
def Blank (cs : List Char) : Prop :=
  ∀ c ∈ cs, c ∈ [' ', '\t', '\n', '\r']

/-- The UTF-16 units of a character: one, or two that are a surrogate pair. -/
def units (c : Char) : List Nat :=
  if c.toNat < 0x10000 then [c.toNat]
  else [0xD800 + (c.toNat - 0x10000) / 0x400, 0xDC00 + (c.toNat - 0x10000) % 0x400]

/-- The four hexadecimal digits of a unit, with small letters. -/
def unitDigits (unit : Nat) : List Char :=
  [unit / 0x1000 % 0x10, unit / 0x100 % 0x10, unit / 0x10 % 0x10, unit % 0x10].map Nat.digitChar

/-- Units written as escapes one behind the other. Each digit may be a small letter or a capital one. -/
inductive UnitsWritten : List Nat → List Char → Prop
  | nil : UnitsWritten [] []
  | cons {unit : Nat} {units : List Nat} {digits cs : List Char} (hdigits : digits.map Char.toLower = unitDigits unit)
      (rest : UnitsWritten units cs) : UnitsWritten (unit :: units) ('\\' :: 'u' :: digits ++ cs)

/-- The letters of the short escapes and what they stand for. -/
def escapeLetters : List (Char × Char) :=
  [('"', '"'), ('\\', '\\'), ('/', '/'), ('b', '\x08'), ('f', '\x0c'), ('n', '\n'), ('r', '\r'), ('t', '\t')]

/-- What may be written for a character of a string. -/
inductive CharWritten (c : Char) : List Char → Prop
  | raw (hquote : c ≠ '"') (hbackslash : c ≠ '\\') (hcontrol : 0x20 ≤ c.toNat) : CharWritten c [c]
  | letter {letter : Char} (hletter : (letter, c) ∈ escapeLetters) : CharWritten c ['\\', letter]
  | units {cs : List Char} (hunits : UnitsWritten (units c) cs) : CharWritten c cs

/-- What may be written for characters of a string. -/
inductive TextWritten : List Char → List Char → Prop
  | nil : TextWritten [] []
  | cons {c : Char} {text cs rest : List Char} (hc : CharWritten c cs) (hrest : TextWritten text rest) :
      TextWritten (c :: text) (cs ++ rest)

/-- What may be written for a string. -/
inductive StringWritten (s : String) : List Char → Prop
  | quoted {cs : List Char} (htext : TextWritten s.toList cs) : StringWritten s ('"' :: cs ++ ['"'])

/-! ## Lists -/

section Lists

variable {α : Type}

/-- What may be written for values, at least one, with commas between them and blanks around them. -/
inductive Listed (Written : α → List Char → Prop) : List α → List Char → Prop
  | last {x : α} {before cs behind : List Char} (hbefore : Blank before) (hx : Written x cs) (hbehind : Blank behind) :
      Listed Written [x] (before ++ cs ++ behind)
  | more {x : α} {xs : List α} {before cs behind rest : List Char} (hbefore : Blank before) (hx : Written x cs)
      (hbehind : Blank behind) (hrest : Listed Written xs rest) :
      Listed Written (x :: xs) (before ++ cs ++ behind ++ ',' :: rest)

/-- What may be written for values in brackets. -/
inductive Enclosed (Written : α → List Char → Prop) (opener closer : Char) : List α → List Char → Prop
  | empty {blanks : List Char} (hblanks : Blank blanks) : Enclosed Written opener closer [] (opener :: blanks ++ [closer])
  | listed {xs : List α} {cs : List Char} (hxs : Listed Written xs cs) :
      Enclosed Written opener closer xs (opener :: cs ++ [closer])

end Lists

/-! ## Printing -/

/-- The escape of a unit, with small letters. -/
def printUnit (unit : Nat) : List Char :=
  '\\' :: 'u' :: unitDigits unit

/-- A character by its units. -/
def printUnits (c : Char) : List Char :=
  (units c).flatMap printUnit

/-- A character, written as it is wherever that may be. -/
def printChar (c : Char) : List Char :=
  if c = '"' ∨ c = '\\' then ['\\', c] else if c.toNat < 0x20 then printUnits c else [c]

/-- A string, given how its characters are printed. -/
def printString (print : Char → List Char) (s : String) : List Char :=
  '"' :: s.toList.flatMap print ++ ['"']

/-- Values with commas between them and a blank on both sides of each. -/
def printListed {α : Type} (print : α → List Char) : List α → List Char
  | [] => []
  | [x] => ' ' :: print x ++ [' ']
  | x :: xs => ' ' :: print x ++ [' '] ++ ',' :: printListed print xs

theorem blank_singleton {c : Char} (hc : c ∈ [' ', '\t', '\n', '\r']) : Blank [c] :=
  fun _ hd => List.mem_singleton.mp hd ▸ hc

theorem toLower_unitDigits (unit : Nat) : (unitDigits unit).map Char.toLower = unitDigits unit := by
  have hsmall : ∀ n < 16, (Nat.digitChar n).toLower = Nat.digitChar n := by decide
  rw [unitDigits, List.map_map]
  refine List.map_congr_left fun n hn => hsmall n ?_
  simp only [List.mem_cons, List.not_mem_nil, or_false] at hn
  omega

theorem charWritten_printUnits (c : Char) : CharWritten c (printUnits c) := by
  have hunits (us : List Nat) : UnitsWritten us (us.flatMap printUnit) := by
    induction us with
    | nil => exact .nil
    | cons unit us ih => exact .cons (toLower_unitDigits unit) ih
  exact .units (hunits _)

theorem charWritten_printChar (c : Char) : CharWritten c (printChar c) := by
  rw [printChar]
  split
  case isTrue h => rcases h with rfl | rfl <;> exact .letter (by decide)
  case isFalse h =>
    rw [not_or] at h
    split
    case isTrue => exact charWritten_printUnits c
    case isFalse hcontrol => exact .raw h.1 h.2 (Nat.le_of_not_lt hcontrol)

theorem stringWritten_print {print : Char → List Char} (h : ∀ c, CharWritten c (print c)) (s : String) :
    StringWritten s (printString print s) := by
  have htext (text : List Char) : TextWritten text (text.flatMap print) := by
    induction text with
    | nil => exact .nil
    | cons c text ih => exact .cons (h c) ih
  exact .quoted (htext _)

section Printing

variable {α : Type} {Written : α → List Char → Prop} {print : α → List Char}

theorem listed_print (x : α) (xs : List α) (h : ∀ y ∈ x :: xs, Written y (print y)) :
    Listed Written (x :: xs) (printListed print (x :: xs)) := by
  have hblank : Blank [' '] := blank_singleton List.mem_cons_self
  induction xs generalizing x with
  | nil => exact .last hblank (h x List.mem_cons_self) hblank
  | cons y ys ih =>
    have hrest := ih y fun z hz => h z (List.mem_cons_of_mem _ hz)
    exact .more hblank (h x List.mem_cons_self) hblank hrest

theorem enclosed_print (opener closer : Char) (xs : List α) (h : ∀ x ∈ xs, Written x (print x)) :
    Enclosed Written opener closer xs (opener :: printListed print xs ++ [closer]) := by
  cases xs with
  | nil => exact .empty (show Blank [] from nofun)
  | cons x xs => exact .listed (listed_print x xs h)

end Printing

end MiniPascal.Json
