import MiniPascal.Proofs.Dictionary.Reading
import MiniPascal.Proofs.Json.Unfinished

/-!
# Only written forms of category tables are read

What has been read of a table is a part of what may be written for one. Which part it is follows from what the table waits
for, and each character that is read adds to it. So a text whose reading comes to an end is a written form of some members.

* `BeforeMember`, `BeforeList`: what is written of a table before a member, and before the list of one.
* `Behind`: what is written, told from what may follow; `Behind.step` is the step that keeps it.
* `read_eq_ok_iff`: the texts from which entries are read, and the entries.
-/

namespace MiniPascal.TableState

open Json (Blank TextState StringWritten Begun Filled)

variable {s t : TableState} {entries members : List Entry} {category : Category} {words : List String}
  {cs ds : List Char} {c : Char}

/-- What is written of a table before a member. -/
inductive BeforeMember (members : List Entry) : List Char → Prop
  | intro {before cs : List Char} (hbefore : Blank before) (hmembers : Begun MemberWritten '\x7b' members cs) :
      BeforeMember members (before ++ cs)

/-- What is written of a table before the list of a member. -/
inductive BeforeList (members : List Entry) (category : Category) : List Char → Prop
  | intro {cs key before behind : List Char} (hmembers : BeforeMember members cs) (htabled : category ∈ Category.tabled)
      (hkey : StringWritten category.key key) (hbefore : Blank before) (hbehind : Blank behind) :
      BeforeList members category (cs ++ (key ++ before ++ ':' :: behind))

/-- What is written of a table, by what may follow. -/
inductive Behind : TableState → List Char → Prop
  | table {cs : List Char} (hblanks : Blank cs) : Behind ⟨[], .table⟩ cs
  | firstKey {before behind : List Char} (hbefore : Blank before) (hbehind : Blank behind) :
      Behind ⟨[], .firstKey⟩ (before ++ '\x7b' :: behind)
  | key {members : List Entry} {cs : List Char} (hmembers : BeforeMember members cs) :
      Behind ⟨entriesOf members, .key⟩ cs
  | keyText {members : List Entry} {text : TextState} {cs ds : List Char} (hmembers : BeforeMember members cs)
      (htext : text.Behind ds) : Behind ⟨entriesOf members, .keyText text⟩ (cs ++ '"' :: ds)
  | colon {members : List Entry} {category : Category} {cs key blanks : List Char} (hmembers : BeforeMember members cs)
      (htabled : category ∈ Category.tabled) (hkey : StringWritten category.key key) (hblanks : Blank blanks) :
      Behind ⟨entriesOf members, .colon category⟩ (cs ++ (key ++ blanks))
  | list {members : List Entry} {category : Category} {cs : List Char} (hlist : BeforeList members category cs) :
      Behind ⟨entriesOf members, .list category⟩ cs
  | firstWord {members : List Entry} {category : Category} {cs blanks : List Char}
      (hlist : BeforeList members category cs) (hblanks : Blank blanks) :
      Behind ⟨entriesOf members, .firstWord category⟩ (cs ++ '[' :: blanks)
  | word {members : List Entry} {category : Category} {words : List String} {cs ds : List Char}
      (hlist : BeforeList members category cs) (hwords : Begun StringWritten '[' words ds) :
      Behind ⟨entriesOf members, .word category words⟩ (cs ++ ds)
  | wordText {members : List Entry} {category : Category} {words : List String} {text : TextState}
      {cs ds es : List Char} (hlist : BeforeList members category cs) (hwords : Begun StringWritten '[' words ds)
      (htext : text.Behind es) : Behind ⟨entriesOf members, .wordText category words text⟩ (cs ++ (ds ++ '"' :: es))
  | wordEnd {members : List Entry} {category : Category} {words : List String} {cs ds : List Char}
      (hlist : BeforeList members category cs) (hwords : Filled StringWritten '[' words ds) :
      Behind ⟨entriesOf members, .wordEnd category words⟩ (cs ++ ds)
  | listEnd {members : List Entry} {before cs : List Char} (hbefore : Blank before)
      (hmembers : Filled MemberWritten '\x7b' members cs) : Behind ⟨entriesOf members, .listEnd⟩ (before ++ cs)
  | nothing {members : List Entry} {cs : List Char} (htable : TableWritten members cs) :
      Behind ⟨entriesOf members, .nothing⟩ cs

/-! ## Blanks -/

theorem BeforeMember.blank {blanks : List Char} (h : BeforeMember members cs) (hblanks : Blank blanks) :
    BeforeMember members (cs ++ blanks) := by
  obtain ⟨hbefore, hmembers⟩ := h
  rw [List.append_assoc]
  exact .intro hbefore (hmembers.blank hblanks)

theorem BeforeList.blank {blanks : List Char} (h : BeforeList members category cs) (hblanks : Blank blanks) :
    BeforeList members category (cs ++ blanks) := by
  obtain ⟨hmembers, htabled, hkey, hbefore, hbehind⟩ := h
  rw [List.append_assoc, List.append_assoc]
  exact .intro hmembers htabled hkey hbefore (hbehind.append hblanks)

theorem tableWritten_blank {blanks : List Char} (h : TableWritten members cs) (hblanks : Blank blanks) :
    TableWritten members (cs ++ blanks) := by
  obtain ⟨hbefore, hmembers, hbehind⟩ := h
  rw [List.append_assoc]
  exact .object hbefore hmembers (hbehind.append hblanks)

/-- Between tokens a blank changes nothing. -/
theorem Behind.blank (h : s.Behind cs) (hs : s.betweenTokens = true) (hc : Json.isBlank c = true) :
    s.Behind (cs ++ [c]) := by
  have hblank : Blank [c] := Json.blank_singleton (isBlank_iff.mp hc)
  cases h with
  | table hblanks => exact .table (hblanks.append hblank)
  | firstKey hbefore hbehind =>
    rw [List.append_assoc]
    exact .firstKey hbefore (hbehind.append hblank)
  | key hmembers => exact .key (hmembers.blank hblank)
  | keyText => cases hs
  | colon hmembers htabled hkey hblanks =>
    rw [List.append_assoc, List.append_assoc]
    exact .colon hmembers htabled hkey (hblanks.append hblank)
  | list hlist => exact .list (hlist.blank hblank)
  | firstWord hlist hblanks =>
    rw [List.append_assoc]
    exact .firstWord hlist (hblanks.append hblank)
  | word hlist hwords =>
    rw [List.append_assoc]
    exact .word hlist (hwords.blank hblank)
  | wordText => cases hs
  | wordEnd hlist hwords =>
    rw [List.append_assoc]
    exact .wordEnd hlist (hwords.blank hblank)
  | listEnd hbefore hmembers =>
    rw [List.append_assoc]
    exact .listEnd hbefore (hmembers.blank hblank)
  | nothing htable => exact .nothing (tableWritten_blank htable hblank)

/-! ## Tokens -/

/-- A member is complete. -/
theorem BeforeList.close (h : BeforeList members category cs) (hwords : WordsWritten words ds) :
    Behind ⟨putEntry category words (entriesOf members), .listEnd⟩ (cs ++ ds) := by
  obtain ⟨⟨hbefore, hmembers⟩, htabled, hkey, hcolon, hbehind⟩ := h
  have hmember := hmembers.item (.member htabled hkey hcolon hbehind hwords)
  have hentries := entriesOf_concat members (category, words)
  rw [List.append_assoc, List.append_assoc]
  exact hentries ▸ .listEnd hbefore hmember

/-- Where only one character may follow, it does, or something else has led on. -/
theorem eq_or_of_ite {d : Char} {next : TableState} {other : TableStep}
    (h : (if c = d then .more next else other) = .more t) : c = d ∧ t = next ∨ other = .more t := by
  split at h
  case isTrue hc => exact .inl ⟨hc, (TableStep.more.inj h).symm⟩
  case isFalse => exact .inr h

/-- One more character is read that is no blank between tokens. -/
theorem Behind.stepToken (h : s.Behind cs) (hstep : s.stepToken c = .more t) : t.Behind (cs ++ [c]) := by
  have hnone : Blank [] := nofun
  cases h with
  | table hblanks =>
    obtain ⟨rfl, rfl⟩ | hother := eq_or_of_ite hstep
    · exact .firstKey hblanks hnone
    · cases hother
  | firstKey hbefore hbehind =>
    obtain ⟨rfl, rfl⟩ | hother := eq_or_of_ite hstep
    · exact Behind.keyText (.intro hbefore (.first hbehind)) TextState.behind_empty
    obtain ⟨rfl, rfl⟩ | hother := eq_or_of_ite hother
    · have htable := TableWritten.object hbefore (.empty hbehind) hnone
      rw [List.append_nil] at htable
      rw [List.append_assoc]
      exact .nothing htable
    · cases hother
  | key hmembers =>
    obtain ⟨rfl, rfl⟩ | hother := eq_or_of_ite hstep
    · exact .keyText hmembers TextState.behind_empty
    · cases hother
  | keyText hmembers htext =>
    rw [List.append_assoc]
    simp only [TableState.stepToken] at hstep
    split at hstep
    case h_1 next hnext =>
      obtain rfl := TableStep.more.inj hstep
      exact .keyText hmembers (htext.step hnext)
    case h_2 key hclosed =>
      split at hstep
      case h_1 category hcategory =>
        obtain rfl := TableStep.more.inj hstep
        obtain ⟨htabled, rfl⟩ := Category.tabled_of_ofKey? hcategory
        have hcolon := Behind.colon hmembers htabled (htext.closed hclosed) hnone
        rwa [List.append_nil] at hcolon
      case h_2 => cases hstep
    case h_3 => cases hstep
  | colon hmembers htabled hkey hblanks =>
    obtain ⟨rfl, rfl⟩ | hother := eq_or_of_ite hstep
    · rw [List.append_assoc]
      exact .list (.intro hmembers htabled hkey hblanks hnone)
    · cases hother
  | list hlist =>
    obtain ⟨rfl, rfl⟩ | hother := eq_or_of_ite hstep
    · exact .firstWord hlist hnone
    · cases hother
  | firstWord hlist hblanks =>
    rw [List.append_assoc]
    obtain ⟨rfl, rfl⟩ | hother := eq_or_of_ite hstep
    · exact .wordText hlist (.first hblanks) TextState.behind_empty
    obtain ⟨rfl, rfl⟩ | hother := eq_or_of_ite hother
    · exact hlist.close (.empty hblanks)
    · cases hother
  | word hlist hwords =>
    rw [List.append_assoc]
    obtain ⟨rfl, rfl⟩ | hother := eq_or_of_ite hstep
    · exact .wordText hlist hwords TextState.behind_empty
    · cases hother
  | wordText hlist hwords htext =>
    rw [List.append_assoc, List.append_assoc]
    simp only [TableState.stepToken] at hstep
    split at hstep
    case h_1 next hnext =>
      obtain rfl := TableStep.more.inj hstep
      exact .wordText hlist hwords (htext.step hnext)
    case h_2 word hclosed =>
      obtain rfl := TableStep.more.inj hstep
      exact .wordEnd hlist (hwords.item (htext.closed hclosed))
    case h_3 => cases hstep
  | wordEnd hlist hwords =>
    rw [List.append_assoc]
    obtain ⟨rfl, rfl⟩ | hother := eq_or_of_ite hstep
    · exact .word hlist hwords.comma
    obtain ⟨rfl, rfl⟩ | hother := eq_or_of_ite hother
    · exact hlist.close hwords.close
    · cases hother
  | listEnd hbefore hmembers =>
    rw [List.append_assoc]
    obtain ⟨rfl, rfl⟩ | hother := eq_or_of_ite hstep
    · exact .key (.intro hbefore hmembers.comma)
    obtain ⟨rfl, rfl⟩ | hother := eq_or_of_ite hother
    · have htable := TableWritten.object hbefore hmembers.close hnone
      rw [List.append_nil] at htable
      exact .nothing htable
    · cases hother
  | nothing => cases hstep

/-- One more character of a table is read. -/
theorem Behind.step (h : s.Behind cs) (hstep : s.step c = .more t) : t.Behind (cs ++ [c]) := by
  rw [TableState.step] at hstep
  split at hstep
  case isTrue hblank =>
    obtain rfl := TableStep.more.inj hstep
    obtain ⟨hs, hc⟩ := Bool.and_eq_true_iff.mp hblank
    exact h.blank hs hc
  case isFalse => exact h.stepToken hstep

/-! ## Whole texts -/

/-- The induction is on the characters that are still to be read; what was read before them is in `ds`. -/
theorem Behind.read (h : s.Behind ds) (hread : s.read cs = .ok entries) :
    ∃ members, TableWritten members (ds ++ cs) ∧ entriesOf members = entries := by
  induction cs generalizing s ds with
  | nil =>
    rw [TableState.read] at hread
    split at hread
    case isTrue hnothing =>
      cases h with
      | nothing htable =>
        rw [List.append_nil]
        exact ⟨_, htable, Except.ok.inj hread⟩
      | _ => cases hnothing
    case isFalse => cases hread
  | cons c cs ih =>
    rw [TableState.read] at hread
    split at hread
    case h_1 next hnext =>
      have hrest := ih (h.step hnext) hread
      rwa [List.append_assoc] at hrest
    case h_2 => cases hread
    case h_3 => cases hread

/-- Entries are read from a text exactly if it is a written form of members, and they are what those members make. -/
theorem read_eq_ok_iff :
    initial.read cs = .ok entries ↔ ∃ members, TableWritten members cs ∧ entriesOf members = entries := by
  constructor
  · intro hread
    exact Behind.read (.table (show Blank [] from nofun)) hread
  · rintro ⟨members, htable, rfl⟩
    exact read_of_tableWritten htable

end MiniPascal.TableState
