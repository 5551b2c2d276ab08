import MiniPascal.Proofs.Dictionary.Accepting

/-!
# What is loaded from a category table

* `ofEntries_eq_error_iff`, `ofEntries_eq_ok_iff`: the first category that a table lacks, and the dictionary of a table that
  lacks none.
* `Assigned`, `classify_entriesOf_iff`: the category of a word, told from the members of a table.
* `ofJson_of_tableWritten`: the dictionary of a text is that of the entries behind its members.
* `loads_as_written`: what is malformed, what is missing from a table, and how it classifies, told from its members.
* `ofJson_of_perm_tabled`: a table with every category once is read back from any of its written forms.
-/

namespace MiniPascal

variable {entries members : List Entry} {category : Category} {word : String}

/-! ## Categories that are missing -/

/-- The first of the tabled categories that a table lacks. -/
def FirstMissing (members : List Entry) (category : Category) : Prop :=
  ∃ before behind, Category.tabled = before ++ category :: behind ∧ category ∉ keysOf members ∧
    ∀ c ∈ before, c ∈ keysOf members

theorem isNone_wordsIn_iff : (wordsIn entries category).isNone ↔ category ∉ keysOf entries := by
  rw [Option.isNone_iff_eq_none, wordsIn, List.lookup_eq_none_iff, keysOf, List.mem_map]
  constructor
  · rintro h ⟨e, he, rfl⟩
    exact bne_iff_ne.mp (h e he) rfl
  · intro h e he
    exact bne_iff_ne.mpr fun heq => h ⟨e, he, heq.symm⟩

theorem firstMissing_entriesOf : FirstMissing (entriesOf members) category ↔ FirstMissing members category := by
  simp only [FirstMissing, mem_keysOf_entriesOf]

theorem ofEntries_eq_error_iff : Dictionary.ofEntries entries = .error category ↔ FirstMissing entries category := by
  have hfind : Dictionary.ofEntries entries = .error category ↔
      Category.tabled.find? (fun c => (wordsIn entries c).isNone) = some category := by
    rw [Dictionary.ofEntries]
    split
    case h_1 missing hmissing => rw [hmissing, Except.error.injEq, Option.some.injEq]
    case h_2 hnone => rw [hnone]; exact ⟨nofun, nofun⟩
  rw [hfind, List.find?_eq_some_iff_append, isNone_wordsIn_iff]
  constructor
  · rintro ⟨hlacks, before, behind, htabled, hbefore⟩
    refine ⟨before, behind, htabled, hlacks, fun c hc => Decidable.not_not.mp fun hc' => ?_⟩
    simpa [isNone_wordsIn_iff.mpr hc'] using hbefore c hc
  · rintro ⟨before, behind, htabled, hlacks, hbefore⟩
    refine ⟨hlacks, before, behind, htabled, fun c hc => ?_⟩
    rw [Bool.not_eq_true', Bool.eq_false_iff]
    exact fun hnone => isNone_wordsIn_iff.mp hnone (hbefore c hc)

theorem ofEntries_eq_ok_iff {d : Dictionary} :
    Dictionary.ofEntries entries = .ok d ↔ (∀ c ∈ Category.tabled, c ∈ keysOf entries) ∧ d = ⟨entries⟩ := by
  rw [Dictionary.ofEntries]
  split
  case h_1 missing hmissing =>
    have htabled := List.mem_of_find?_eq_some hmissing
    have hlacks := List.find?_some hmissing
    exact iff_of_false (fun h => by cases h) fun h => isNone_wordsIn_iff.mp hlacks (h.1 missing htabled)
  case h_2 hnone =>
    have hall : ∀ c ∈ Category.tabled, c ∈ keysOf entries := fun c hc =>
      Decidable.not_not.mp fun hlacks => List.find?_eq_none.mp hnone c hc (isNone_wordsIn_iff.mpr hlacks)
    rw [Except.ok.injEq, eq_comm]
    exact (and_iff_right hall).symm

/-! ## Classifying -/

/-- A category lists a word last. -/
def ListsWord (members : List Entry) (word : String) (category : Category) : Prop :=
  ∃ words, lastWords members category = some words ∧ word ∈ words

/-- The category of a word: of those that list it last the one that stands first, and none if there is none. -/
def Assigned (members : List Entry) (word : String) (category : Category) : Prop :=
  ListsWord members word category ∧ (∀ c, ListsWord members word c → firstPlace members category ≤ firstPlace members c) ∨
    category = .unclassified ∧ ∀ c, ¬ListsWord members word c

theorem mem_keysOf_of_listsWord (h : ListsWord members word category) : category ∈ keysOf members := by
  obtain ⟨words, hwords, _⟩ := h
  exact mem_keysOf_entriesOf.mp (List.mem_map.mpr ⟨(category, words), mem_entriesOf.mpr hwords, rfl⟩)

/-- No two categories stand first in the same place. -/
theorem eq_of_firstPlace_eq {other : Category} (hc : category ∈ keysOf members) (ho : other ∈ keysOf members)
    (h : firstPlace members category = firstPlace members other) : category = other := by
  have hplace {c : Category} (hc : c ∈ keysOf members) : members[firstPlace members c]?.map (·.1) = some c := by
    rw [List.getElem?_eq_getElem (firstPlace_lt hc)]
    exact congrArg some (of_decide_eq_true (List.findIdx_getElem (w := firstPlace_lt hc)))
  exact Option.some.inj (by rw [← hplace hc, h, hplace ho])

theorem assigned_unique {other : Category} (hc : Assigned members word category) (ho : Assigned members word other) :
    category = other := by
  rcases hc with ⟨hlists, hfirst⟩ | ⟨rfl, hnone⟩
  · rcases ho with ⟨hlists', hfirst'⟩ | ⟨_, hnone'⟩
    · have heq := Nat.le_antisymm (hfirst other hlists') (hfirst' category hlists)
      exact eq_of_firstPlace_eq (mem_keysOf_of_listsWord hlists) (mem_keysOf_of_listsWord hlists') heq
    · exact absurd hlists (hnone' category)
  · rcases ho with ⟨hlists', _⟩ | ⟨rfl, _⟩
    · exact absurd hlists' (hnone other)
    · rfl

theorem assigned_classify : Assigned members word ((⟨entriesOf members⟩ : Dictionary).classify word) := by
  rw [Dictionary.classify]
  cases hfind : (entriesOf members).find? fun e => e.2.contains word with
  | none =>
    refine .inr ⟨rfl, ?_⟩
    rintro c ⟨words, hwords, hword⟩
    have hlacks := List.find?_eq_none.mp hfind (c, words) (mem_entriesOf.mpr hwords)
    exact hlacks (List.contains_iff_mem.mpr hword)
  | some e =>
    obtain ⟨hword, before, behind, hentries, hbefore⟩ := List.find?_eq_some_iff_append.mp hfind
    have he : lastWords members e.1 = some e.2 :=
      mem_entriesOf.mp (hentries ▸ List.mem_append_right _ List.mem_cons_self)
    refine .inl ⟨⟨e.2, he, List.contains_iff_mem.mp hword⟩, ?_⟩
    rintro c ⟨words, hwords, hword'⟩
    have hc : (c, words) ∈ before ++ e :: behind := hentries ▸ mem_entriesOf.mpr hwords
    rcases List.mem_append.mp hc with hc | hc
    · have hlacks := hbefore (c, words) hc
      rw [List.contains_iff_mem.mpr hword'] at hlacks
      cases hlacks
    · rcases List.mem_cons.mp hc with rfl | hc
      · exact Nat.le_refl _
      · have hsorted := sorted_entriesOf members
        rw [hentries, keysOf, List.map_append, List.map_cons, List.pairwise_append, List.pairwise_cons] at hsorted
        exact Nat.le_of_lt (hsorted.2.1.1 c (List.mem_map_of_mem hc))

theorem classify_entriesOf_iff :
    (⟨entriesOf members⟩ : Dictionary).classify word = category ↔ Assigned members word category :=
  ⟨fun h => h ▸ assigned_classify, assigned_unique assigned_classify⟩

/-! ## Texts -/

/-- The dictionary of a text is that of the entries behind the members that are written in it. -/
theorem ofJson_of_tableWritten {text : String} (h : TableWritten members text.toList) :
    Dictionary.ofJson text = (Dictionary.ofEntries (entriesOf members)).mapError .missingCategory := by
  rw [Dictionary.ofJson, TableState.read_of_tableWritten h]

/-- The texts that are malformed are those that are no written form of members. -/
theorem ofJson_malformed_iff {text : String} :
    (∃ fault, Dictionary.ofJson text = .error (.malformed fault)) ↔ ¬∃ members, TableWritten members text.toList := by
  constructor
  · rintro ⟨fault, hfault⟩ ⟨members, htable⟩
    rw [ofJson_of_tableWritten htable] at hfault
    cases hentries : Dictionary.ofEntries (entriesOf members) <;> rw [hentries] at hfault <;> cases hfault
  · intro hnone
    cases hread : TableState.initial.read text.toList with
    | error fault => exact ⟨fault, by rw [Dictionary.ofJson, hread]⟩
    | ok entries =>
      obtain ⟨members, htable, _⟩ := TableState.read_eq_ok_iff.mp hread
      exact absurd ⟨members, htable⟩ hnone

/-- A text that is no table is malformed. A table fails to load at the first category that it lacks. If it lacks none, a word
belongs to the category that stands first among those that list the word last. -/
theorem loads_as_written (text : String) :
    ((∃ fault, Dictionary.ofJson text = .error (.malformed fault)) ↔ ¬∃ members, TableWritten members text.toList) ∧
      ∀ members, TableWritten members text.toList →
        (∀ c, Dictionary.ofJson text = .error (.missingCategory c) ↔ FirstMissing members c) ∧
        ((∀ c ∈ Category.tabled, c ∈ keysOf members) →
          ∃ d, Dictionary.ofJson text = .ok d ∧ ∀ word c, d.classify word = c ↔ Assigned members word c) := by
  refine ⟨ofJson_malformed_iff, fun members h => ?_⟩
  rw [ofJson_of_tableWritten h]
  refine ⟨fun c => ?missing, fun hall => ?loaded⟩
  case missing =>
    rw [← firstMissing_entriesOf, ← ofEntries_eq_error_iff]
    cases Dictionary.ofEntries (entriesOf members) with
    | error missing => simp [Except.mapError]
    | ok d => simp [Except.mapError]
  case loaded =>
    refine ⟨⟨entriesOf members⟩, ?_, fun word c => classify_entriesOf_iff⟩
    rw [ofEntries_eq_ok_iff.mpr ⟨fun c hc => mem_keysOf_entriesOf.mpr (hall c hc), rfl⟩]
    rfl

/-- A table that starts with the category that it also ends with. -/
def comesAgain : List Entry :=
  (.programWord, ["int"]) :: Category.tabled.reverse.map fun c => (c, [c.key, "word"])

/-- The category that comes again takes a word from those between its places, and gives up what it listed first. With only
the first of its members the table lacks the second category. -/
theorem loads_comesAgain :
    (∃ d, Dictionary.ofJson (String.ofList (printTable Json.printChar comesAgain)) = .ok d ∧
        d.classify "word" = .programWord ∧ d.classify "int" = .unclassified) ∧
      Dictionary.ofJson (String.ofList (printTable Json.printChar (comesAgain.take 1))) =
        .error (.missingCategory .varWord) := by
  have hprinted (members : List Entry) (h : ∀ m ∈ members, m.1 ∈ Category.tabled) :
      TableWritten members (String.ofList (printTable Json.printChar members)).toList := by
    rw [String.toList_ofList]
    exact tableWritten_print Json.charWritten_printChar h
  have hword : Assigned comesAgain "word" .programWord :=
    .inl ⟨⟨["program", "word"], by decide, by decide⟩, fun _ _ => Nat.zero_le _⟩
  have hint : Assigned comesAgain "int" .unclassified := by
    have hlast (c : Category) : "int" ∉ (lastWords comesAgain c).getD [] := by cases c <;> decide
    refine .inr ⟨rfl, fun c ⟨words, hwords, hmem⟩ => hlast c ?_⟩
    rwa [hwords, Option.getD_some]
  obtain ⟨_, hloads⟩ := (loads_as_written _).2 comesAgain (hprinted _ (by decide))
  obtain ⟨hmissing, _⟩ := (loads_as_written _).2 (comesAgain.take 1) (hprinted _ (by decide))
  obtain ⟨d, hd, hclassify⟩ := hloads (by decide)
  refine ⟨⟨d, hd, (hclassify _ _).mpr hword, (hclassify _ _).mpr hint⟩, (hmissing _).mpr ?_⟩
  exact ⟨[.programWord], _, rfl, by decide, by decide⟩

end MiniPascal
