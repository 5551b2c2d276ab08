import Mathlib.Data.List.Induction
import MiniPascal.Dictionary.Basic

/-!
# The entries of a table whose keys come again

A key that comes again keeps its first place and takes its last list. So the order of the entries and their words are
told by different members: the first ones and the last ones of each category.

* `entriesOf`: the entries behind members that are put into a table one by one.
* `firstPlace`, `lastWords`: where a category stands first among members, and what it lists last.
* `sorted_entriesOf`: the entries are in the order of the first places.
* `mem_entriesOf`: an entry has the words that its category lists last.
* `entriesOf_of_nodup`: members of different categories are the entries themselves.
-/

namespace MiniPascal

variable {entries members : List Entry} {category other : Category} {words : List String} {e : Entry}

/-- The categories that are listed. -/
def keysOf (entries : List Entry) : List Category :=
  entries.map (·.1)

/-! ## One entry -/

theorem wordsIn_cons (e : Entry) (rest : List Entry) (category : Category) :
    wordsIn (e :: rest) category = if category = e.1 then some e.2 else wordsIn rest category := by
  obtain ⟨key, words⟩ := e
  rw [wordsIn, List.lookup_cons]
  split
  case h_1 heq => rw [if_pos (beq_iff_eq.mp heq)]
  case h_2 hne => rw [if_neg (beq_eq_false_iff_ne.mp hne), wordsIn]

theorem keysOf_putEntry : keysOf (putEntry category words entries) =
    if category ∈ keysOf entries then keysOf entries else keysOf entries ++ [category] := by
  induction entries with
  | nil => rfl
  | cons e rest ih =>
    rw [putEntry]
    by_cases he : e.1 = category
    · simp [keysOf, he]
    · have hne : category ≠ e.1 := fun h => he h.symm
      have hmem : category ∈ keysOf (e :: rest) ↔ category ∈ keysOf rest := by simp [keysOf, hne]
      have hcons : keysOf (e :: putEntry category words rest) = e.1 :: keysOf (putEntry category words rest) := rfl
      rw [if_neg he, hcons, ih]
      by_cases hrest : category ∈ keysOf rest
      · rw [if_pos hrest, if_pos (hmem.mpr hrest)]
        rfl
      · rw [if_neg hrest, if_neg (mt hmem.mp hrest)]
        rfl

theorem wordsIn_putEntry :
    wordsIn (putEntry category words entries) other = if other = category then some words else wordsIn entries other := by
  induction entries with
  | nil => rw [putEntry, wordsIn_cons]
  | cons e rest ih =>
    rw [putEntry]
    by_cases he : e.1 = category
    · rw [if_pos he, wordsIn_cons, wordsIn_cons, he]
      split
      case isTrue => rfl
      case isFalse => rfl
    · rw [if_neg he, wordsIn_cons, wordsIn_cons, ih]
      by_cases ho : other = category
      · have hne : other ≠ e.1 := fun h => he (h.symm.trans ho)
        rw [if_neg hne, if_pos ho, if_pos ho]
      · rw [if_neg ho, if_neg ho]

/-- The entries behind members that are put into a table one by one. -/
def entriesOf (members : List Entry) : List Entry :=
  members.foldl (fun entries m => putEntry m.1 m.2 entries) []

/-- Where a category stands first among members, behind them all if it does not. -/
def firstPlace (members : List Entry) (category : Category) : Nat :=
  members.findIdx (·.1 = category)

/-- The words that a category lists last among members. -/
def lastWords (members : List Entry) (category : Category) : Option (List String) :=
  members.reverse.lookup category

theorem entriesOf_concat (members : List Entry) (m : Entry) :
    entriesOf (members ++ [m]) = putEntry m.1 m.2 (entriesOf members) := by
  rw [entriesOf, List.foldl_append]
  rfl

theorem lastWords_concat (members : List Entry) (m : Entry) (category : Category) :
    lastWords (members ++ [m]) category = if category = m.1 then some m.2 else lastWords members category := by
  rw [lastWords, List.reverse_append, List.reverse_singleton, List.singleton_append]
  exact wordsIn_cons m members.reverse category

theorem keysOf_concat (members : List Entry) (m : Entry) : keysOf (members ++ [m]) = keysOf members ++ [m.1] :=
  List.map_append

theorem firstPlace_lt (h : category ∈ keysOf members) : firstPlace members category < members.length := by
  obtain ⟨m, hm, rfl⟩ := List.mem_map.mp h
  exact List.findIdx_lt_length.mpr ⟨m, hm, decide_eq_true rfl⟩

/-- A later member does not move the place of a category. -/
theorem firstPlace_concat_of_mem (m : Entry) (h : category ∈ keysOf members) :
    firstPlace (members ++ [m]) category = firstPlace members category := by
  have hlt := firstPlace_lt h
  rw [firstPlace] at hlt ⊢
  rw [List.findIdx_append, if_pos hlt, firstPlace]

/-- A new category stands behind the members before it. -/
theorem firstPlace_concat_of_not_mem (m : Entry) (h : m.1 ∉ keysOf members) :
    firstPlace (members ++ [m]) m.1 = members.length := by
  have hge : ¬firstPlace members m.1 < members.length := fun hlt => by
    obtain ⟨x, hx, hkey⟩ := List.findIdx_lt_length.mp hlt
    exact h (List.mem_map.mpr ⟨x, hx, of_decide_eq_true hkey⟩)
  rw [firstPlace] at hge ⊢
  rw [List.findIdx_append, if_neg hge]
  simp [List.findIdx_cons]

/-! ## The entries behind members -/

theorem mem_keysOf_entriesOf : category ∈ keysOf (entriesOf members) ↔ category ∈ keysOf members := by
  induction members using List.reverseRecOn with
  | nil => exact Iff.rfl
  | append_singleton members m ih =>
    rw [entriesOf_concat, keysOf_putEntry, keysOf_concat, List.mem_append, List.mem_singleton, ← ih]
    split
    case isTrue hm => exact ⟨.inl, fun h => h.elim id fun heq => heq ▸ hm⟩
    case isFalse => rw [List.mem_append, List.mem_singleton]

/-- The entries are in the order in which their categories stand first. -/
theorem sorted_entriesOf (members : List Entry) :
    (keysOf (entriesOf members)).Pairwise fun c d => firstPlace members c < firstPlace members d := by
  -- From the right, for the first places of the members before stay what they are.
  induction members using List.reverseRecOn with
  | nil => exact .nil
  | append_singleton members m ih =>
    have hkept : (keysOf (entriesOf members)).Pairwise fun c d =>
        firstPlace (members ++ [m]) c < firstPlace (members ++ [m]) d := by
      refine ih.imp_of_mem fun hc hd hlt => ?_
      rw [firstPlace_concat_of_mem m (mem_keysOf_entriesOf.mp hc), firstPlace_concat_of_mem m (mem_keysOf_entriesOf.mp hd)]
      exact hlt
    rw [entriesOf_concat, keysOf_putEntry]
    split
    case isTrue => exact hkept
    case isFalse hm =>
      refine List.pairwise_append.mpr ⟨hkept, List.pairwise_singleton _ _, ?_⟩
      intro c hc d hd
      have hc := mem_keysOf_entriesOf.mp hc
      rw [List.mem_singleton.mp hd, firstPlace_concat_of_mem m hc,
        firstPlace_concat_of_not_mem m fun h => hm (mem_keysOf_entriesOf.mpr h)]
      exact firstPlace_lt hc

theorem nodup_keysOf_entriesOf (members : List Entry) : (keysOf (entriesOf members)).Nodup := by
  refine (sorted_entriesOf members).imp fun hlt heq => ?_
  rw [heq] at hlt
  exact Nat.lt_irrefl _ hlt

theorem wordsIn_entriesOf (members : List Entry) (category : Category) :
    wordsIn (entriesOf members) category = lastWords members category := by
  induction members using List.reverseRecOn with
  | nil => rfl
  | append_singleton members m ih => rw [entriesOf_concat, wordsIn_putEntry, lastWords_concat, ih]

/-- Where no category is listed twice, an entry is what is found under its category. -/
theorem mem_iff_wordsIn (h : (keysOf entries).Nodup) : e ∈ entries ↔ wordsIn entries e.1 = some e.2 := by
  rw [wordsIn, List.lookup_eq_some_iff]
  constructor
  · intro he
    obtain ⟨before, behind, rfl⟩ := List.append_of_mem he
    refine ⟨before, behind, rfl, fun m hm => bne_iff_ne.mpr ?_⟩
    rw [keysOf, List.map_append, List.map_cons, List.nodup_append] at h
    exact fun heq => h.2.2 m.1 (List.mem_map_of_mem hm) e.1 List.mem_cons_self heq.symm
  · rintro ⟨before, behind, rfl, _⟩
    exact List.mem_append_right _ List.mem_cons_self

/-- An entry has the words that its category lists last. -/
theorem mem_entriesOf : e ∈ entriesOf members ↔ lastWords members e.1 = some e.2 := by
  rw [mem_iff_wordsIn (nodup_keysOf_entriesOf members), wordsIn_entriesOf]

end MiniPascal
