import MiniPascal.Proofs.Comments.Stray

/-!
# Looking back for the opening of a comment

Behind each operator of the outermost list the analysis looks back at the lexeme before it: if that is a closing brace, the
nearest mark before the brace has to be an opening one. The brace has always closed a comment that was skipped. But a
dictionary may list further marks, and each of them opens a comment and may stand in one; then the brace is reported although
its comment was skipped.

* `nearestMark?`: the nearest mark before an index. It is what the margin remembers (`remembers_of_reaches`).
* `LooksAt`: the closing braces at which the analysis looks back.
* `missesOpening_iff`: which of them are reported.
-/

namespace MiniPascal

variable {program : List Lexeme} {i j : Nat} {s : State} {x : Lexeme} {mark : String}
  {passed below : List Goal} {halt : Halt}

/-! ## The nearest mark -/

/-- The spelling of the nearest mark of a comment before an index. -/
def nearestMark? (program : List Lexeme) (i : Nat) : Option String :=
  ((program.take i).reverse.find? (·.category = .comment)).map (·.text)

/-- The lexeme of an index is a closing brace. -/
def ClosesAt (program : List Lexeme) (i : Nat) : Prop :=
  ∃ x, program[i]? = some x ∧ x.category = .comment ∧ x.text = closingMark

theorem nearestMark?_succ (hx : program[i]? = some x) :
    nearestMark? program (i + 1) = if x.category = .comment then some x.text else nearestMark? program i := by
  rw [nearestMark?, List.take_add_one, hx, Option.toList_some, List.reverse_append, List.reverse_singleton,
    List.singleton_append, List.find?_cons]
  by_cases hc : x.category = .comment
  · simp [hc]
  · simp [hc, nearestMark?]

/-- The nearest mark is that of a lexeme. -/
theorem exists_mark (h : nearestMark? program i = some mark) :
    ∃ x ∈ program, x.category = .comment ∧ x.text = mark := by
  obtain ⟨x, hx, hmark⟩ := Option.map_eq_some_iff.mp h
  have hmem := List.mem_reverse.mp (List.mem_of_find?_eq_some hx)
  have hc := List.find?_some hx
  exact ⟨x, List.mem_of_mem_take hmem, of_decide_eq_true hc, hmark⟩

/-- What the margin remembers are nearest marks: that of an open comment, and outside comments a closing brace right before
the index whose nearest mark is no opening brace. -/
def Margin.Remembers (program : List Lexeme) (i : Nat) : Margin → Prop
  | .inside _ mark => nearestMark? program i = some mark ∧ mark ≠ closingMark
  | .outside loose? => ∀ j, loose? = some j ↔ i = j + 1 ∧ ClosesAt program j ∧ nearestMark? program j ≠ some openingMark

theorem Margin.Remembers.step {s' : State} (h : s.margin.Remembers program i) (hread : s.read = i)
    (hx : program[i]? = some x) (hmoves : Moves s x s') : s'.margin.Remembers program (i + 1) := by
  cases hmoves with
  | @skip opening mark hm =>
    obtain ⟨hmark, hopen⟩ : nearestMark? program i = some mark ∧ mark ≠ closingMark := by rwa [hm] at h
    dsimp only
    rw [readInside]
    split
    case isTrue hc => exact ⟨by rw [nearestMark?_succ hx, if_neg hc, hmark], hopen⟩
    case isFalse hc =>
      split
      case isTrue htext =>
        have hcloses : ClosesAt program i := ⟨x, hx, Decidable.not_not.mp hc, htext⟩
        intro j
        rw [hread, Option.ite_none_left_eq_some, Option.some.injEq]
        constructor
        · rintro ⟨hmarked, rfl⟩
          exact ⟨rfl, hcloses, by rwa [hmark, Ne, Option.some.injEq]⟩
        · rintro ⟨hij, _, hmarked⟩
          obtain rfl := Nat.succ.inj hij
          rw [hmark, Ne, Option.some.injEq] at hmarked
          exact ⟨hmarked, rfl⟩
      case isFalse htext => exact ⟨by rw [nearestMark?_succ hx, if_pos (Decidable.not_not.mp hc)], htext⟩
  | comment hm hc htext => exact ⟨by rw [nearestMark?_succ hx, if_pos hc], htext⟩
  | goal hm hc =>
    intro j
    refine iff_of_false (Option.some_ne_none j).symm ?_
    rintro ⟨hij, ⟨y, hy, hclose, _⟩, _⟩
    obtain rfl := Nat.succ.inj hij
    obtain rfl := Option.some.inj (hx.symm.trans hy)
    exact hc hclose

theorem remembers_of_reaches (hi : i ≤ program.length) (h : Reaches program i s) : s.margin.Remembers program i := by
  have hinv : s.read = i ∧ s.margin.Remembers program i := by
    refine invariant_of_step (P := fun i s => s.read = i ∧ s.margin.Remembers program i) ⟨rfl, ?_⟩ ?_ hi h
    · exact fun j => iff_of_false nofun nofun
    · rintro i x s s' hx ⟨hread, hs⟩ hmoves
      exact ⟨by rw [hmoves.read, hread], hs.step hread hx hmoves⟩
  exact hinv.2

/-! ## Looking back -/

/-- The analysis looks back at the lexeme of an index: it is a closing brace, and behind it the outermost operators are to go
on or to end, since the goals above let pass what stands there. -/
structure LooksAt (program : List Lexeme) (j : Nat) : Prop where
  closes : ClosesAt program j
  word : ∀ x, program[j + 1]? = some x → x.category ≠ .comment
  looks : ∃ s loose? passed below, Reaches program (j + 1) s ∧ s.margin = .outside loose? ∧
    s.goals = passed ++ .moreOperators :: below ∧ LetPass s.scope ⟨j + 1, loose?⟩ passed program[j + 1]?

theorem LooksAt.lt_length (h : LooksAt program j) : j < program.length := by
  obtain ⟨x, hx, _⟩ := h.closes
  exact (List.getElem?_eq_some_iff.mp hx).1

/-- Where the analysis looks back, a comment has just been skipped. -/
theorem LooksAt.inside (h : LooksAt program j) :
    ∃ r opening mark, Reaches program j r ∧ r.margin = .inside opening mark := by
  obtain ⟨x, hx, hc, htext⟩ := h.closes
  obtain ⟨s, loose?, _, _, hs, hm, _⟩ := h.looks
  obtain ⟨r, hr, hstep⟩ := (reaches_succ hx).mp hs
  cases moves_of_step hstep with
  | skip hinside => exact ⟨r, _, _, hr, hinside⟩
  | comment _ _ hne => exact absurd htext hne
  | goal _ hne => exact absurd hc hne

/-- Where a brace that the margin remembers meets the outermost operators, the analysis looks back at it. -/
theorem looksAt_of_loose (hi : i ≤ program.length) (hs : Reaches program i s) (hm : s.margin = .outside (some j))
    (hgoals : s.goals = passed ++ .moreOperators :: below) (hword : ∀ x, program[i]? = some x → x.category ≠ .comment)
    (hpass : LetPass s.scope ⟨i, some j⟩ passed program[i]?) :
    LooksAt program j ∧ nearestMark? program j ≠ some openingMark := by
  have hremembers := remembers_of_reaches hi hs
  rw [hm] at hremembers
  obtain ⟨rfl, hcloses, hmark⟩ := (hremembers j).mp rfl
  exact ⟨⟨hcloses, hword, s, some j, passed, below, hs, hm, hgoals, hpass⟩, hmark⟩

theorem looksAt_of_step (hs : Reaches program i s) (hx : program[i]? = some x)
    (hstep : s.step x = .error ⟨.missingCommentOpening, j⟩) (hj : j < i) :
    LooksAt program j ∧ nearestMark? program j ≠ some openingMark := by
  have hi := Nat.le_of_lt (List.getElem?_eq_some_iff.mp hx).1
  have hread := read_of_reaches hi hs
  subst hread
  cases halting_of_step hstep with
  | stray =>
    -- a brace that closes nothing is reported at its own index
    exact absurd hj (Nat.lt_irrefl _)
  | @goal _ loose? passed below g hm hc hgoals hpass hg =>
    rcases refuses_of_onLexeme hg with ⟨_, hrefuses⟩ | ⟨rfl, hloose, _⟩
    · exact absurd rfl (class_of_refuses hrefuses)
    · obtain rfl : loose? = some j := hloose
      refine looksAt_of_loose hi hs hm hgoals (fun y hy => ?_) (hx ▸ offer_eq_pass_iff.mpr hpass)
      exact Option.some.inj (hx.symm.trans hy) ▸ hc

theorem looksAt_of_finish (hs : Reaches program program.length s) (h : s.finish = some ⟨.missingCommentOpening, j⟩) :
    LooksAt program j ∧ nearestMark? program j ≠ some openingMark := by
  have hnone : program[program.length]? = none := List.getElem?_eq_none (Nat.le_refl _)
  rw [State.finish] at h
  split at h
  · cases h
  · rename_i loose? hm
    obtain ⟨passed, g, below, hgoals, hpass, hg⟩ := complaint_eq_some h
    rw [read_of_reaches (Nat.le_refl _) hs] at hpass hg
    rcases lacks_of_onEnd hg with ⟨_, hlacks⟩ | ⟨rfl, hloose, _⟩
    · exact absurd rfl (class_of_lacks hlacks)
    · obtain rfl : loose? = some j := hloose
      refine looksAt_of_loose (Nat.le_refl _) hs hm hgoals (fun y hy => ?_) (hnone ▸ List.findSome?_eq_none_iff.mpr hpass)
      cases hnone.symm.trans hy

/-! ## Reports -/

theorem cursor_of_step (hs : Reaches program i s) (hx : program[i]? = some x) (h : s.step x = .error halt) :
    cursor program = i := by
  obtain ⟨hlt, rfl⟩ := List.getElem?_eq_some_iff.mp hx
  have hread := read_of_reaches (Nat.le_of_lt hlt) hs
  rw [(Stops.breach hs hx h).cursor_eq, List.drop_eq_getElem_cons hlt, State.cursor, h, hread]

theorem cursor_of_finish {loose? : Option Nat} (hs : Reaches program program.length s) (hm : s.margin = .outside loose?) :
    cursor program = program.length := by
  rw [(Stops.finish hs rfl).cursor_eq, List.drop_length, State.cursor, hm, read_of_reaches (Nat.le_refl _) hs]

/-- An opening mark that is missed for a lexeme before the one that halts the analysis is missed by looking back. -/
theorem looksAt_of_breach? (h : breach? program = some ⟨.missingCommentOpening, j⟩) (hj : j < cursor program) :
    LooksAt program j ∧ nearestMark? program j ≠ some openingMark := by
  rcases breach?_eq_some h with ⟨i, x, s, hx, hs, hstep⟩ | ⟨s, hs, hfinish⟩
  · exact looksAt_of_step hs hx hstep (cursor_of_step hs hx hstep ▸ hj)
  · exact looksAt_of_finish hs hfinish

/-- A brace at which the analysis looks back is reported if the nearest mark before it is no opening brace. -/
theorem missesOpening_of_looksAt (h : LooksAt program j) (hmark : nearestMark? program j ≠ some openingMark) :
    breach? program = some ⟨.missingCommentOpening, j⟩ ∧ j < cursor program := by
  have hlt := h.lt_length
  obtain ⟨s, loose?, passed, below, hs, hm, hgoals, hpass⟩ := h.looks
  have hread := read_of_reaches hlt hs
  have hremembers := remembers_of_reaches hlt hs
  rw [hm] at hremembers
  obtain rfl : loose? = some j := (hremembers j).mpr ⟨rfl, h.closes, hmark⟩
  cases hx : program[j + 1]? with
  | none =>
    have hend : j + 1 = program.length := Nat.le_antisymm hlt (List.getElem?_eq_none_iff.mp hx)
    have hfinish : s.finish = some ⟨.missingCommentOpening, j⟩ := by
      have hnone : complaint s.scope ⟨j + 1, some j⟩ passed = none := by rwa [hx] at hpass
      simp only [State.finish, hm, hread, hgoals, complaint_append, hnone]
      rfl
    rw [hend] at hs
    exact ⟨(Stops.finish hs rfl).breach?_eq.trans hfinish, cursor_of_finish hs hm ▸ hlt⟩
  | some x =>
    have hstep : s.step x = .error ⟨.missingCommentOpening, j⟩ := by
      have hoffer : offer s.scope ⟨j + 1, some j⟩ x s.goals = .refuse ⟨.missingCommentOpening, j⟩ := by
        rw [hx] at hpass
        rw [hgoals, offer_append, hpass]
        rfl
      rw [State.step_of_word hm (h.word x hx), hread, hoffer]
    exact ⟨breach?_of_step hs hx hstep, cursor_of_step hs hx hstep ▸ Nat.lt_succ_self j⟩

/-- The analysis looks back only at closing braces of comments that it has skipped. It reports such a brace exactly if the
nearest mark before it is no opening brace, which cannot be where all marks are braces. -/
theorem missesOpening_iff (program : List Lexeme) (j : Nat) :
    (breach? program = some ⟨.missingCommentOpening, j⟩ ∧ j < cursor program ↔
      LooksAt program j ∧ nearestMark? program j ≠ some openingMark) ∧
    (LooksAt program j → insideComment program j = true) ∧
    (MarkedByBraces program → LooksAt program j → nearestMark? program j = some openingMark) := by
  refine ⟨⟨fun ⟨h, hj⟩ => looksAt_of_breach? h hj, fun ⟨h, hmark⟩ => missesOpening_of_looksAt h hmark⟩, ?_, ?_⟩
  · intro h
    obtain ⟨r, opening, mark, hr, hm⟩ := h.inside
    rw [← isInside_of_reaches (Nat.le_of_lt h.lt_length) hr, hm, Margin.isInside]
  · intro hbraces h
    obtain ⟨r, opening, mark, hr, hm⟩ := h.inside
    have hremembers := remembers_of_reaches (Nat.le_of_lt h.lt_length) hr
    rw [hm] at hremembers
    obtain ⟨hmark, hopen⟩ := hremembers
    obtain ⟨x, hx, hc, rfl⟩ := exists_mark hmark
    rw [hmark, (hbraces x hx hc).resolve_right hopen]

/-- The built-in dictionary with one more mark of comments. -/
def hashDictionary : Dictionary :=
  ⟨putEntry .comment [openingMark, closingMark, "#"] Dictionary.builtin.entries⟩

/-- A program with this mark in a comment. -/
def hashed : List Lexeme :=
  tokenize hashDictionary "program begin \x7b # \x7d end"

/-- Its comment is skipped, and then its closing brace is reported. Before `begin` the same comment is only skipped. -/
theorem hashed_missesOpening :
    LooksAt hashed 4 ∧ insideComment hashed 4 = true ∧
      (analyze hashed).diagnostic? = some ⟨.missingCommentOpening, lexemeAt hashed 4⟩ ∧
      (analyze (tokenize hashDictionary "program \x7b # \x7d begin end")).diagnostic? = none := by
  have hbehind : hashed[4]? = some ⟨closingMark, .comment, ⟨1, 15⟩⟩ ∧ hashed[5]? = some ⟨"end", .endWord, ⟨1, 16⟩⟩ := by
    decide +kernel
  let s : State := ⟨[.operator .outermost, .moreOperators, .endWord],
    (ScopeTable.empty.openBlock .program ScopeTable.global).openInner .body, 5, .outside (some 4)⟩
  have hreaches : Reaches hashed 5 s := by
    have htake : hashed.take 5 = [⟨"program", .programWord, ⟨1, 1⟩⟩, ⟨"begin", .beginWord, ⟨1, 8⟩⟩,
        ⟨openingMark, .comment, ⟨1, 13⟩⟩, ⟨"#", .comment, ⟨1, 14⟩⟩, ⟨closingMark, .comment, ⟨1, 15⟩⟩] := by decide +kernel
    rw [Reaches, htake]
    rfl
  refine ⟨⟨⟨_, hbehind.1, rfl, rfl⟩, fun x hx => ?_, s, some 4, [.operator .outermost], [.endWord], hreaches, rfl, rfl, ?_⟩,
    ?_, ?_, ?_⟩
  · obtain rfl := Option.some.inj (hbehind.2.symm.trans hx)
    decide
  · rw [hbehind.2, LetPass]
    decide +kernel
  all_goals decide +kernel

end MiniPascal
