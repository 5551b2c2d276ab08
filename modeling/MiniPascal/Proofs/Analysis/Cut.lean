import MiniPascal.Proofs.Blocks.Outlined

/-!
# Programs that break off or go on

A program without comments that is accepted is accepted as a whole only. Where it breaks off something is still awaited,
so the end of the input is at fault; where it goes on, the first lexeme behind it is.

* `margin_of_bare`: without comments the margin is never touched.
* `reports_of_cut_and_continued`: the reports on the prefixes of an accepted program and on what goes on with it.
-/

namespace MiniPascal

variable {program : List Lexeme} {i : Nat} {s : State} {halt : Halt} {x : Lexeme}

/-- A run that reaches an index has reached those before it. -/
theorem exists_reaches_of_le {j : Nat} (hij : i ≤ j) (h : Reaches program j s) : ∃ r, Reaches program i r := by
  have hsplit : program.take j = program.take i ++ (program.take j).drop i := by
    have htake : (program.take j).take i = program.take i := by rw [List.take_take, Nat.min_eq_left hij]
    rw [← htake, List.take_append_drop]
  rw [Reaches, hsplit, State.after_append] at h
  cases hi : State.initial.after (program.take i) with
  | error halt =>
    rw [hi] at h
    cases h
  | ok r => exact ⟨r, hi⟩

/-! ## Programs without comments -/

/-- Without comments no lexeme is read inside one or behind one. -/
theorem margin_of_bare (hbare : ∀ x ∈ program, x.category ≠ .comment) (hi : i ≤ program.length)
    (h : Reaches program i s) : s.margin = .outside none := by
  refine invariant_of_step (P := fun _ s => s.margin = .outside none) rfl ?_ hi h
  intro i x s s' hx hs hmoves
  cases hmoves with
  | skip hm =>
    rw [hs] at hm
    cases hm
  | comment _ hc _ => exact absurd hc (hbare x (List.mem_of_getElem? hx))
  | goal => rfl

/-- Outside comments it is the end of the input that something is missed at. -/
theorem index_of_finish (hm : s.margin = .outside none) (h : s.finish = some halt) : halt.index = s.read := by
  rw [State.finish, hm] at h
  obtain ⟨passed, g, rest, _, _, hg⟩ := complaint_eq_some h
  rcases lacks_of_onEnd hg with ⟨hindex, _⟩ | ⟨_, hloose, _⟩
  · exact hindex
  · cases hloose

/-- Where nothing is awaited no word is taken any more. -/
theorem step_of_met {loose? : Option Nat} (hg : s.goals = []) (hm : s.margin = .outside loose?)
    (hx : x.category ≠ .comment) : s.step x = .error ⟨.trailingAfterEnd, s.read⟩ := by
  simp [State.step_of_word hm hx, hg]

theorem lexemeAt_length (program : List Lexeme) : lexemeAt program program.length = .endOfInput program.getLast? := by
  simp [lexemeAt]

/-! ## Reports -/

/-- A program without comments that is accepted, cut short anywhere, breaks a rule at the end of the input: an empty
lexeme right behind its last one. Continued by a word, it breaks off at this word. -/
theorem reports_of_cut_and_continued (hbare : ∀ x ∈ program, x.category ≠ .comment)
    (haccepted : (analyze program).diagnostic? = none) :
    (∀ cut, cut <+: program → cut ≠ program → ∃ kind, (analyze cut).diagnostic? = some ⟨kind, ⟨"", .unclassified,
      cut.getLast?.elim .start fun last => last.position.advance last.text.length⟩⟩) ∧
    ∀ x more, x.category ≠ .comment →
      (analyze (program ++ x :: more)).diagnostic? = some ⟨.trailingAfterEnd, x⟩ := by
  rw [diagnostic?_analyze, Option.map_eq_none_iff] at haccepted
  obtain ⟨last, hlast, hfinish⟩ := breach?_eq_none haccepted
  constructor
  · intro cut hcut hne
    have hlt : cut.length < program.length := by
      refine Nat.lt_of_le_of_ne hcut.length_le fun hlen => hne (hcut.eq_of_length hlen)
    have htake : program.take cut.length = cut := List.prefix_iff_eq_take.mp hcut |>.symm
    obtain ⟨r, hr⟩ := exists_reaches_of_le (Nat.le_of_lt hlt) hlast
    have hm := margin_of_bare hbare (Nat.le_of_lt hlt) hr
    have hread := read_of_reaches (Nat.le_of_lt hlt) hr
    obtain ⟨hstage, _⟩ := tracks_of_reaches (Nat.le_of_lt hlt) hr
    have hrcut : Reaches cut cut.length r := by
      rw [Reaches, List.take_length]
      rwa [Reaches, htake] at hr
    have hreport := (Stops.finish hrcut rfl).analyze_eq
    cases hend : r.finish with
    | none =>
      -- the goals are met, but then the next word of the program is not taken
      have hx := List.getElem?_eq_getElem hlt
      have hc := hbare _ (List.getElem_mem hlt)
      obtain ⟨next, hnext⟩ := exists_reaches_of_le hlt hlast
      obtain ⟨r', hr', hstep⟩ := (reaches_succ hx).mp hnext
      obtain rfl : r = r' := Except.ok.inj (hr.symm.trans hr')
      rw [step_of_met (goals_of_finish hend hstage) hm hc] at hstep
      cases hstep
    | some halt =>
      refine ⟨halt.kind, ?_⟩
      rw [hreport, hend, Option.map_some, Halt.diagnostic, index_of_finish hm hend, hread, lexemeAt_length]
      cases cut.getLast? <;> rfl
  · intro x more hx
    obtain ⟨hstage, _⟩ := tracks_of_reaches (Nat.le_refl _) hlast
    have hm := margin_of_bare hbare (Nat.le_refl _) hlast
    have hstep := step_of_met (goals_of_finish hfinish hstage) hm hx
    rw [read_of_reaches (Nat.le_refl _) hlast] at hstep
    have hreaches : Reaches (program ++ x :: more) program.length last := by
      rw [Reaches, List.take_left]
      rwa [Reaches, List.take_length] at hlast
    have hat : (program ++ x :: more)[program.length]? = some x := by simp
    rw [(Stops.breach hreaches hat hstep).analyze_eq, Option.map_some, Halt.diagnostic, lexemeAt_of_getElem? hat]

/-- A program with a branch and a block. -/
def branching : List Lexeme :=
  tokenize .builtin "program var int x begin if x > 0 then [ x := x - 1 ] end"

/-- Cut behind the sign of an operand, and continued by a word that no program begins with. -/
theorem reports_of_branching_cut_and_continued :
    ((∀ x ∈ branching, x.category ≠ .comment) ∧ (analyze branching).diagnostic? = none) ∧
    (∃ kind, (analyze (branching.take 15)).diagnostic? = some ⟨kind, ⟨"", .unclassified, ⟨1, 35⟩⟩⟩) ∧
    (analyze (branching ++ [⟨";", .semicolon, .start⟩])).diagnostic? =
      some ⟨.trailingAfterEnd, ⟨";", .semicolon, .start⟩⟩ := by
  obtain ⟨hbare, haccepted, hlength, hlast⟩ : (∀ x ∈ branching, x.category ≠ .comment) ∧
      (analyze branching).diagnostic? = none ∧ branching.length = 18 ∧
      (branching.take 15).getLast? = some ⟨"-", .addition, ⟨1, 34⟩⟩ := by decide +kernel
  obtain ⟨hcut, hcontinued⟩ := reports_of_cut_and_continued hbare haccepted
  refine ⟨⟨hbare, haccepted⟩, ?_, hcontinued _ [] (by decide)⟩
  have hne : branching.take 15 ≠ branching := fun h => by simpa [hlength] using congrArg List.length h
  obtain ⟨kind, hkind⟩ := hcut _ (List.take_prefix 15 _) hne
  rw [hlast] at hkind
  exact ⟨kind, hkind⟩

end MiniPascal
