import MiniPascal.Dictionary.Json
import MiniPascal.Proofs.Dictionary.Entries
import MiniPascal.Proofs.Json.Strings

/-!
# Every written form of a category table is read

A table is written as an object whose members are lists of strings, each under the key of a category. Whatever blanks and
escapes it is written with, all of it is read, and the entries are those of its members put into the table one by one.

* `MemberWritten`, `TableWritten`: what may be written for a member and for the members of a table, in their order.
* `printTable`, `tableWritten_print`: one of the forms in which a table may be written.
* `Encloses`: how a table goes through values in brackets; `encloses_words` and `encloses_members` are its two cases.
* `scans_blanks`, `scans_key`, `scans_word`, `scans_member`: the parts of a table.
* `read_of_tableWritten`: the table.
-/

namespace MiniPascal

open Json (Blank TextState CharWritten StringWritten TextWritten Listed Enclosed Scans printString printListed)

/-! ## Written tables -/

/-- What may be written for the words of a category. -/
def WordsWritten : List String → List Char → Prop :=
  Enclosed StringWritten '[' ']'

/-- What may be written for a member of a table. -/
inductive MemberWritten : Entry → List Char → Prop
  | member {category : Category} {words : List String} {key before behind list : List Char}
      (htabled : category ∈ Category.tabled) (hkey : StringWritten category.key key) (hbefore : Blank before)
      (hbehind : Blank behind) (hwords : WordsWritten words list) :
      MemberWritten (category, words) (key ++ before ++ ':' :: behind ++ list)

/-- What may be written for a table with the given members. A key may stand in several of them. -/
inductive TableWritten (members : List Entry) : List Char → Prop
  | object {before cs behind : List Char} (hbefore : Blank before)
      (hmembers : Enclosed MemberWritten '\x7b' '\x7d' members cs) (hbehind : Blank behind) :
      TableWritten members (before ++ cs ++ behind)

/-! ## Printed tables -/

section Printing

/-- A member of a table, given how the characters of its key and its words are printed. -/
def printMember (print : Char → List Char) (m : Entry) : List Char :=
  printString print m.1.key ++ [' '] ++ ':' :: [' '] ++ ('[' :: printListed (printString print) m.2 ++ [']'])

/-- A table, given how the characters of its keys and its words are printed. -/
def printTable (print : Char → List Char) (members : List Entry) : List Char :=
  '\x7b' :: printListed (printMember print) members ++ ['\x7d', '\n']

variable {print : Char → List Char} {members : List Entry}

theorem memberWritten_print (hprint : ∀ c, CharWritten c (print c)) {m : Entry} (hm : m.1 ∈ Category.tabled) :
    MemberWritten m (printMember print m) := by
  have hblank : Blank [' '] := Json.blank_singleton List.mem_cons_self
  have hword := Json.stringWritten_print hprint
  exact .member hm (hword _) hblank hblank (Json.enclosed_print '[' ']' m.2 fun word _ => hword word)

theorem tableWritten_print (hprint : ∀ c, CharWritten c (print c)) (h : ∀ m ∈ members, m.1 ∈ Category.tabled) :
    TableWritten members (printTable print members) := by
  have hmembers := Json.enclosed_print '\x7b' '\x7d' members fun m hm => memberWritten_print hprint (h m hm)
  have hbreak : Blank ['\n'] := Json.blank_singleton (by simp)
  have htable := TableWritten.object (show Blank [] from nofun) hmembers hbreak
  rwa [List.nil_append, List.append_assoc] at htable

end Printing

namespace TableState

variable {s t : TableState} {entries : List Entry} {category : Category} {words : List String} {cs : List Char}

/-- A character is read and the table goes on. -/
abbrev GoesOn (s : TableState) (c : Char) (t : TableState) : Prop :=
  s.step c = .more t

theorem read_of_scans (h : Scans GoesOn s cs t) (rest : List Char) : s.read (cs ++ rest) = t.read rest := by
  induction h with
  | nil => rfl
  | cons hstep _ ih =>
    rw [List.cons_append, read, hstep]
    exact ih

/-! ## Blanks and marks -/

theorem isBlank_iff {c : Char} : Json.isBlank c = true ↔ c ∈ [' ', '\t', '\n', '\r'] := by
  simp [Json.isBlank, or_assoc]

theorem scans_blanks (hs : s.betweenTokens = true) (h : Blank cs) : Scans GoesOn s cs s := by
  induction cs with
  | nil => exact .nil
  | cons c cs ih =>
    have hblank := isBlank_iff.mpr (h c List.mem_cons_self)
    refine .cons ?_ (ih fun d hd => h d (List.mem_cons_of_mem _ hd))
    simp [GoesOn, step, hs, hblank]

/-! ## Values in brackets -/

/-- How a table goes through values in brackets: behind the opening one it waits in `first`, behind values in `done` for a
comma or the closing bracket, and behind a comma in `next` for one value more. -/
structure Encloses {α : Type} (Written : α → List Char → Prop) (opener closer : Char) (start first : TableState)
    (next done final : List α → TableState) : Prop where
  opens : GoesOn start opener first
  comma (xs : List α) : GoesOn (done xs) ',' (next xs)
  closes (xs : List α) : GoesOn (done xs) closer (final xs)
  closesEmpty : GoesOn first closer (final [])
  between_first : first.betweenTokens = true
  between_next (xs : List α) : (next xs).betweenTokens = true
  between_done (xs : List α) : (done xs).betweenTokens = true
  item_first {x : α} {cs : List Char} (hx : Written x cs) : Scans GoesOn first cs (done [x])
  item_next (xs : List α) {x : α} {cs : List Char} (hx : Written x cs) : Scans GoesOn (next xs) cs (done (xs ++ [x]))

namespace Encloses

variable {α : Type} {Written : α → List Char → Prop} {opener closer : Char} {start first : TableState}
  {next done final : List α → TableState} {xs : List α}

/-- Values are read from where the first of them is read. -/
theorem scans_listed (h : Encloses Written opener closer start first next done final) (hxs : Listed Written xs cs) :
    ∀ {s : TableState} {before : List α}, s.betweenTokens = true →
      (∀ {x cs}, Written x cs → Scans GoesOn s cs (done (before ++ [x]))) → Scans GoesOn s cs (done (before ++ xs)) := by
  -- The first value and the later ones are awaited in different states, so the state is general in the induction.
  induction hxs with
  | last hbefore hx hbehind =>
    intro s before hs hitem
    exact ((scans_blanks hs hbefore).append (hitem hx)).append (scans_blanks (h.between_done _) hbehind)
  | @more x xs _ _ _ _ hbefore hx hbehind _ ih =>
    intro s before hs hitem
    have hrest := ih (h.between_next (before ++ [x])) fun hy => h.item_next (before ++ [x]) hy
    rw [List.append_assoc, List.singleton_append] at hrest
    exact (((scans_blanks hs hbefore).append (hitem hx)).append (scans_blanks (h.between_done _) hbehind)).append
      (.cons (h.comma _) hrest)

theorem scans (h : Encloses Written opener closer start first next done final)
    (hxs : Enclosed Written opener closer xs cs) : Scans GoesOn start cs (final xs) := by
  cases hxs with
  | empty hblanks => exact .cons h.opens ((scans_blanks h.between_first hblanks).append (.single h.closesEmpty))
  | listed hxs =>
    have hlisted : Scans GoesOn first _ (done ([] ++ xs)) := h.scans_listed hxs h.between_first h.item_first
    exact .cons h.opens (hlisted.append (.single (h.closes _)))

end Encloses

/-! ## Keys and words -/

/-- What stands between the quotes of a key or a word is read as the text of a string. -/
theorem scans_inside {f : TextState → Awaited} {text next : TextState} (h : Scans TextState.GoesOn text cs next)
    (hf : ∀ text c next, text.step c = .more next → (⟨entries, f text⟩ : TableState).step c = .more ⟨entries, f next⟩) :
    Scans GoesOn ⟨entries, f text⟩ cs ⟨entries, f next⟩ :=
  h.map (fun text => (⟨entries, f text⟩ : TableState)) hf

/-- A key is read from its opening quote to its closing one. -/
theorem scans_key (hs : GoesOn s '"' ⟨entries, .keyText .empty⟩) (htabled : category ∈ Category.tabled)
    (hkey : StringWritten category.key cs) : Scans GoesOn s cs ⟨entries, .colon category⟩ := by
  cases hkey with
  | quoted htext =>
    obtain ⟨last, htext, hlast⟩ := TextState.scans_string htext
    have hinside : Scans GoesOn ⟨entries, .keyText .empty⟩ _ ⟨entries, .keyText last⟩ :=
      scans_inside htext fun text c next hnext => by simp [step, betweenTokens, stepToken, hnext, await]
    refine .cons hs (hinside.append (.single ?_))
    simp [GoesOn, step, betweenTokens, stepToken, hlast, Category.ofKey?_key htabled, await]

/-- A word is read behind others. -/
theorem scans_word (hs : GoesOn s '"' ⟨entries, .wordText category words .empty⟩) {word : String}
    (hword : StringWritten word cs) : Scans GoesOn s cs ⟨entries, .wordEnd category (words ++ [word])⟩ := by
  cases hword with
  | quoted htext =>
    obtain ⟨last, htext, hlast⟩ := TextState.scans_string htext
    have hinside : Scans GoesOn ⟨entries, .wordText category words .empty⟩ _ ⟨entries, .wordText category words last⟩ :=
      scans_inside htext fun text c next hnext => by simp [step, betweenTokens, stepToken, hnext, await]
    refine .cons hs (hinside.append (.single ?_))
    simp [GoesOn, step, betweenTokens, stepToken, hlast, await]

/-! ## Lists of words and members -/

theorem encloses_words (entries : List Entry) (category : Category) :
    Encloses StringWritten '[' ']' ⟨entries, .list category⟩ ⟨entries, .firstWord category⟩
      (fun words => ⟨entries, .word category words⟩) (fun words => ⟨entries, .wordEnd category words⟩)
      (fun words => ⟨putEntry category words entries, .listEnd⟩) where
  opens := rfl
  comma words := rfl
  closes words := rfl
  closesEmpty := rfl
  between_first := rfl
  between_next words := rfl
  between_done words := rfl
  item_first hx := by
    have hquote : GoesOn ⟨entries, .firstWord category⟩ '"' ⟨entries, .wordText category [] .empty⟩ := rfl
    exact scans_word hquote hx
  item_next words _ _ hx := scans_word rfl hx

/-- A member is put into the table. -/
theorem scans_member {m : Entry} (hs : GoesOn s '"' ⟨entries, .keyText .empty⟩) (hm : MemberWritten m cs) :
    Scans GoesOn s cs ⟨putEntry m.1 m.2 entries, .listEnd⟩ := by
  cases hm with
  | @member category words _ _ _ _ htabled hkey hbefore hbehind hwords =>
    have hcolon : GoesOn ⟨entries, .colon category⟩ ':' ⟨entries, .list category⟩ := rfl
    have hblanks : Scans GoesOn ⟨entries, .colon category⟩ _ ⟨entries, .colon category⟩ := scans_blanks rfl hbefore
    have hblanks' : Scans GoesOn ⟨entries, .list category⟩ _ ⟨entries, .list category⟩ := scans_blanks rfl hbehind
    have hlist := (encloses_words entries category).scans hwords
    rw [List.append_assoc]
    exact ((scans_key hs htabled hkey).append hblanks).append (.cons hcolon (hblanks'.append hlist))

theorem encloses_members :
    Encloses MemberWritten '\x7b' '\x7d' initial ⟨[], .firstKey⟩ (fun members => ⟨entriesOf members, .key⟩)
      (fun members => ⟨entriesOf members, .listEnd⟩) (fun members => ⟨entriesOf members, .nothing⟩) where
  opens := rfl
  comma members := rfl
  closes members := rfl
  closesEmpty := rfl
  between_first := rfl
  between_next members := rfl
  between_done members := rfl
  item_first hm := scans_member rfl hm
  item_next members m _ hm := by
    rw [entriesOf_concat]
    exact scans_member rfl hm

/-- The entries of a table are read from whatever is written for its members. -/
theorem read_of_tableWritten {members : List Entry} (h : TableWritten members cs) :
    initial.read cs = .ok (entriesOf members) := by
  cases h with
  | object hbefore hmembers hbehind =>
    have hscans := ((scans_blanks (s := initial) rfl hbefore).append (encloses_members.scans hmembers)).append
      (scans_blanks rfl hbehind)
    have hread := read_of_scans hscans []
    rw [List.append_nil] at hread
    rw [hread]
    rfl

end TableState

end MiniPascal
