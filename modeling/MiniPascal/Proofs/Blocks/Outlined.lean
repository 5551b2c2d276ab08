import MiniPascal.Dictionary.Builtin
import MiniPascal.Proofs.Analysis.Stop
import MiniPascal.Proofs.Blocks.Mirror
import MiniPascal.Proofs.Branches.Matching

/-!
# Blocks and brackets in a run

* `Outlined`: the scope table is the one that the words before an index tell.
* `tracks_of_reaches`: so it is wherever a run gets.
* `reports_of_brackets`: what follows for reports: which breaches of brackets can be reported where, and that a program
  without a breach has balanced brackets.
-/

namespace MiniPascal

variable {program : List Lexeme} {i : Nat} {t t' : ScopeTable} {here : Place} {x : Lexeme} {g : Goal}
  {passed rest new above below : List Goal}

/-! ## One word -/

/-- A goal on a stack of two parts stands in one of them. -/
theorem split_goals (h : passed ++ g :: rest = above ++ below) :
    (∃ middle, above = passed ++ g :: middle ∧ rest = middle ++ below) ∨
      ∃ middle, passed = above ++ middle ∧ below = middle ++ g :: rest := by
  rcases List.append_eq_append_iff.mp h with ⟨middle, habove, hbelow⟩ | ⟨middle, hpassed, hbelow⟩
  · cases middle with
    | nil => exact .inr ⟨[], by simpa using habove.symm, hbelow.symm⟩
    | cons g' middle =>
      obtain ⟨rfl, rfl⟩ := List.cons.inj hbelow
      exact .inl ⟨middle, habove, rfl⟩
  · exact .inr ⟨middle, hpassed, hbelow⟩

/-- A declaration is read in the stage of declarations. -/
theorem stage_declaring (hx : wordAt? program i = some x) (h : Tracks program i t)
    (hgoals : passed ++ g :: rest = above ++ [.beginWord]) (habove : ∀ g ∈ above, g.declares)
    (hp : Passed program i true false false) (ho : opened program i = 0) (hn : openBrackets program i = [])
    (htakes : g.Takes t here x t' new) (halters : Alters t x g t') :
    Stage program (i + 1) (new ++ rest) ∧ Tracks program (i + 1) t' := by
  rcases split_goals hgoals with ⟨middle, rfl, rfl⟩ | ⟨middle, rfl, hbelow⟩
  · obtain ⟨hnew, hc⟩ := declares_of_takes (habove g (by simp)) htakes
    have hstage : Stage program (i + 1) (new ++ (middle ++ [.beginWord])) := by
      rw [← List.append_assoc]
      have hbrackets : [Category.compoundOpen, .compoundClose] ⊆ blockWords := by decide
      have hnone : NoBracket program i := .of_word hx fun hmem => hc (hbrackets hmem)
      refine .declaring _ ?_ (hp.keep hx ?_) (hnone.opened_eq.trans ho) (hnone.openBrackets_eq.trans hn)
      · intro g' hmem
        rcases List.mem_append.mp hmem with hmem | hmem
        · exact hnew g' hmem
        · exact habove g' (by simp [hmem])
      · have hsub : [Category.programWord, .beginWord, .endWord] ⊆ blockWords := by decide
        exact fun hmem => hc (hsub hmem)
    refine ⟨hstage, ?_⟩
    cases halters with
    | keep _ hc => exact h.step_keep hx hc
    | declare hc _ hcurrent hd => exact h.step_declare hx hc hcurrent hd
    | program hx' | body hx' | opening hx' | closing hx' _ | ending hx' => simp [hx'] at hc
  · obtain ⟨rfl, rfl, rfl⟩ : middle = [] ∧ g = .beginWord ∧ rest = [] := by
      cases middle <;> simp_all
    cases htakes with
    | beginWord hc =>
      have hnone : NoBracket program i := .of_word hx (by simp [hc])
      have hp' : Passed program (i + 1) true true false := by simpa [hc] using hp.succ hx
      have hb : BegunAt program (i + 1) i := ⟨Nat.lt_succ_self i, (standsAt_iff hx).mpr hc, hn⟩
      exact ⟨.body [] (List.forall_mem_nil _) (.inl rfl) hp' hb, h.step_begin hx hp ho hn hc⟩

/-- A goal of an operator leaves goals of operators, the lowest one that of an operator in no statement. -/
theorem inner_goals {middle : List Goal} {last : Goal} (hgoals : above ++ [last] = passed ++ g :: middle)
    (habove : ∀ g ∈ above, g.inner) (hlast : last.Outermost) (htakes : g.Takes t here x t' new) :
    ∃ above' last', new ++ middle = above' ++ [last'] ∧ (∀ g ∈ above', g.inner) ∧ last'.Outermost := by
  have hinner : ∀ g' ∈ passed ++ g :: middle, g'.inner := by
    rw [← hgoals]
    intro g' hmem
    rcases List.mem_append.mp hmem with hmem | hmem
    · exact habove g' hmem
    · rw [List.mem_singleton.mp hmem]
      exact hlast.inner
  have hnew := inner_of_takes (hinner g (by simp)) htakes
  rcases List.eq_nil_or_concat middle with rfl | ⟨middle', last', rfl⟩
  · obtain ⟨_, hlast_eq⟩ := List.append_inj' hgoals rfl
    obtain rfl : last = g := (List.cons.inj hlast_eq).1
    obtain ⟨above', last', rfl, hlast'⟩ := hlast.exists_last htakes
    exact ⟨above', last', by simp, fun g hmem => hnew g (by simp [hmem]), hlast'⟩
  · rw [List.concat_eq_append] at hgoals hinner ⊢
    have hgoals : above ++ [last] = (passed ++ g :: middle') ++ [last'] := by simpa using hgoals
    obtain ⟨_, hlast_eq⟩ := List.append_inj' hgoals rfl
    obtain rfl : last = last' := (List.cons.inj hlast_eq).1
    refine ⟨new ++ middle', last, by simp, ?_, hlast⟩
    intro g' hmem
    rcases List.mem_append.mp hmem with hmem | hmem
    · exact hnew g' hmem
    · exact hinner g' (by simp [hmem])

/-- A word is read in the body. -/
theorem stage_body {last : Goal} {b : Nat} (hx : wordAt? program i = some x) (h : Tracks program i t)
    (hgoals : passed ++ g :: rest = above ++ last :: [.moreOperators, .endWord]) (habove : ∀ g ∈ above, g.inner)
    (hlast : last.Outermost) (hp : Passed program i true true false) (hb : BegunAt program i b)
    (hpass : PassAll t here x passed) (htakes : g.Takes t here x t' new) (halters : Alters t x g t') :
    Stage program (i + 1) (new ++ rest) ∧ Tracks program (i + 1) t' := by
  have hb' : BegunAt program (i + 1) b := ⟨Nat.lt_succ_of_lt hb.1, hb.2⟩
  have hgoals : passed ++ g :: rest = (above ++ [last]) ++ [.moreOperators, .endWord] := by simpa using hgoals
  rcases split_goals hgoals with ⟨middle, hinner, rfl⟩ | ⟨middle, rfl, hbelow⟩
  · obtain ⟨above', last', hnew, habove', hlast'⟩ := inner_goals hinner habove hlast htakes
    have hg : g.inner := by
      have hmem : g ∈ above ++ [last] := by rw [hinner]; simp
      rcases List.mem_append.mp hmem with hmem | hmem
      · exact habove g hmem
      · rw [List.mem_singleton.mp hmem]
        exact hlast.inner
    have hstage (hc : x.category ∉ [.programWord, .beginWord, .endWord]) :
        Stage program (i + 1) (new ++ (middle ++ [.moreOperators, .endWord])) := by
      rw [← List.append_assoc, hnew, List.append_assoc]
      exact .body above' habove' hlast' (hp.keep hx hc) hb'
    cases halters with
    | keep _ hc =>
      have hsub : [Category.programWord, .beginWord, .endWord] ⊆ blockWords := by decide
      exact ⟨hstage fun hmem => hc (hsub hmem), h.step_keep hx hc⟩
    | opening hc => exact ⟨hstage (by simp [hc]), h.step_open hx hp hc⟩
    | closing hc hin => exact ⟨hstage (by simp [hc]), h.step_close hx hp hc hin⟩
    | declare hc _ hcurrent hd => exact ⟨hstage (by simp [hc]), h.step_declare hx hc hcurrent hd⟩
    | program | body | ending => cases hg
  · cases middle with
    | nil =>
      obtain ⟨rfl, rfl⟩ := List.cons.inj hbelow
      cases htakes with
      | moreOperators hc =>
        have hp' : Passed program (i + 1) true true false := hp.keep hx (by simp [hc])
        exact ⟨.body [] (List.forall_mem_nil _) (.inl rfl) hp' hb', h.step_keep hx (by simp [hc])⟩
    | cons g' middle =>
      obtain ⟨rfl, rfl, rfl, rfl⟩ : g' = .moreOperators ∧ middle = [] ∧ g = .endWord ∧ rest = [] := by
        cases middle <;> simp_all
      cases htakes with
      | endWord hc =>
        have hin : t.inCompound = false := hlast.outside_of_pass hc (hpass last (by simp))
        have hn : openBrackets program i = [] := by simpa [h.inCompound_body hp] using hin
        have hnone : NoBracket program i := .of_word hx (by simp [hc])
        have hp' : Passed program (i + 1) true true true := by simpa [hc] using hp.succ hx
        exact ⟨.done hp' (hnone.openBrackets_eq.trans hn) hb (Nat.lt_succ_self i)
          ((standsAt_iff hx).mpr hc) hn, h.step_end hx hp hc hn⟩

/-! ## Runs -/

theorem tracks_zero : Tracks program 0 .empty where
  outline_eq := by simp [passed_zero.outline_eq, bracketOutline, ScopeTable.outline, ScopeTable.empty]
  bare := rfl
  current := by
    rw [passed_zero.currentPlace?_eq]
    rfl
  compounds := rfl
  balance := rfl

/-- Where no word is read nothing changes. -/
theorem stage_quiet {goals : List Goal} (hx : wordAt? program i = none) (hs : Stage program i goals)
    (h : Tracks program i t) : Stage program (i + 1) goals ∧ Tracks program (i + 1) t := by
  have hnone : NoBracket program i := ⟨not_standsAt hx, not_standsAt hx⟩
  refine ⟨?_, h.still (fun c _ => not_standsAt hx) rfl rfl rfl rfl⟩
  cases hs with
  | heading hp ho hn => exact .heading (hp.quiet hx) (hnone.opened_eq.trans ho) (hnone.openBrackets_eq.trans hn)
  | declaring above habove hp ho hn =>
    exact .declaring above habove (hp.quiet hx) (hnone.opened_eq.trans ho) (hnone.openBrackets_eq.trans hn)
  | body above habove hlast hp hb => exact .body above habove hlast (hp.quiet hx) ⟨Nat.lt_succ_of_lt hb.1, hb.2⟩
  | done hp hn hb he hend hne => exact .done (hp.quiet hx) (hnone.openBrackets_eq.trans hn) hb (Nat.lt_succ_of_lt he) hend hne

/-- Wherever a run gets, its goals are those of a stage and its blocks those that the words before tell. -/
theorem tracks_of_reaches {s : State} (hi : i ≤ program.length) (h : Reaches program i s) :
    Stage program i s.goals ∧ Tracks program i s.scope := by
  refine invariant_of_alters (P := fun i goals t => Stage program i goals ∧ Tracks program i t) ?_ ?_ ?_ hi h
  · exact ⟨.heading passed_zero rfl rfl, tracks_zero⟩
  · rintro i goals t hx ⟨hs, h⟩
    exact stage_quiet hx hs h
  · rintro i x here passed rest new g t t' hx ⟨hs, h⟩ hpass _ htakes halters
    generalize hgoals : passed ++ g :: rest = goals at hs
    cases hs with
    | heading hp ho hn =>
      obtain ⟨rfl, rfl, rfl⟩ : passed = [] ∧ g = .programWord ∧ rest = [] := by
        cases passed <;> simp_all
      cases htakes with
      | programWord hc =>
        have hnone : NoBracket program i := .of_word hx (by simp [hc])
        have hp' : Passed program (i + 1) true false false := by simpa [hc] using hp.succ hx
        exact ⟨.declaring [.variableLists] (by simp [Goal.declares]) hp' (hnone.opened_eq.trans ho)
          (hnone.openBrackets_eq.trans hn), h.step_program hx hp ho hc⟩
    | declaring _ habove hp ho hn => exact stage_declaring hx h hgoals habove hp ho hn htakes halters
    | body _ habove hlast hp hb => exact stage_body hx h hgoals habove hlast hp hb hpass htakes halters
    | done => simp at hgoals

/-- As many compound blocks are open as brackets. -/
theorem Stage.openBrackets {goals : List Goal} (hs : Stage program i goals) (h : Tracks program i t) :
    t.openCompounds = (openBrackets program i).length ∧ t.inCompound = !(openBrackets program i).isEmpty := by
  cases hs with
  | body _ _ _ hp _ => exact ⟨h.openCompounds_body hp, h.inCompound_body hp⟩
  | heading hp _ hn | declaring _ _ hp _ hn | done hp hn _ _ _ _ =>
    rw [hn]
    exact h.outside hp

/-- The scope table is the one that the words before an index tell: its blocks and the current one are, as many compound
blocks are open as brackets were opened and not closed, and no variable is declared in the global block. -/
structure Outlined (program : List Lexeme) (i : Nat) (t : ScopeTable) : Prop where
  outline_eq : t.outline = outline program i
  current : t.current? = currentPlace? program i
  depth : t.openCompounds + closed program i = opened program i
  bare : t.blocks[ScopeTable.global]? = some ⟨.global, none, []⟩

theorem outlined_of_reaches {s : State} (hi : i ≤ program.length) (h : Reaches program i s) :
    Outlined program i s.scope := by
  obtain ⟨hs, h⟩ := tracks_of_reaches hi h
  refine ⟨h.outline_eq, h.current, ?_, h.bare⟩
  rw [(hs.openBrackets h).1, h.balance, Nat.add_comm]

/-! ## Reports -/

/-- A breach at the place where a run stops is stray, or some goal refuses a lexeme or lacks one. -/
theorem kind_of_stops {s : State} {halt : Halt} (h : Stops program i s (some halt)) :
    halt.kind ∈ strayKinds ∨ (∃ g ∈ s.goals, ∃ x, g.Refuses s.scope x halt.kind) ∨
      ∃ g ∈ s.goals, g.Lacks s.scope halt.kind := by
  generalize hhalt : some halt = halt? at h
  cases h with
  | breach _ _ hstep =>
    cases hhalt
    cases halting_of_step hstep with
    | full | stray | late => exact .inl (by simp [strayKinds])
    | @goal _ _ _ _ g _ _ hgoals _ hg =>
      rcases refuses_of_onLexeme hg with ⟨_, hrefuses⟩ | ⟨_, _, hk⟩
      · exact .inr (.inl ⟨g, by simp [hgoals], _, hrefuses⟩)
      · exact .inl (by simp [hk, strayKinds])
  | finish _ _ =>
    have hfinish := hhalt.symm
    unfold State.finish at hfinish
    split at hfinish
    · cases hfinish
      exact .inl (by simp [strayKinds])
    · obtain ⟨passed, g, rest, hgoals, _, hg⟩ := complaint_eq_some hfinish
      rcases lacks_of_onEnd hg with ⟨_, hlacks⟩ | ⟨_, _, hk⟩
      · exact .inr (.inr ⟨g, by simp [hgoals], hlacks⟩)
      · exact .inl (by simp [hk, strayKinds])

/-- Where a name is to be declared a block is open. -/
theorem Stage.current {goals : List Goal} {type : DataType} (hs : Stage program i goals) (h : Tracks program i t)
    (hg : .variableName type ∈ goals) : t.current? ≠ none := by
  rw [h.current]
  cases hs with
  | heading | done => simp at hg
  | declaring _ _ hp _ _ | body _ _ _ hp _ =>
    rw [hp.currentPlace?_eq]
    nofun

/-- What a breach of brackets says of the blocks that are open. -/
theorem open_of_stops {s : State} {halt : Halt} (h : Stops program i s (some halt)) :
    halt.kind ≠ .globalDeclaration ∧ (halt.kind = .unexpectedCompoundEnd → s.scope.inCompound = false) ∧
      (halt.kind = .awaitedName "]" → s.scope.inCompound = true) := by
  obtain ⟨hs, htracks⟩ := tracks_of_reaches h.le_length h.reaches
  rcases kind_of_stops h with hk | ⟨g, hg, x, hrefuses⟩ | ⟨g, _, hlacks⟩
  · simp only [strayKinds, List.mem_cons, List.not_mem_nil, or_false] at hk
    rcases hk with hk | hk | hk | hk <;> simp [hk]
  · generalize halt.kind = kind at hrefuses
    cases hrefuses with
    | variableName hn =>
      cases hn with
      | global hc => exact absurd hc (hs.current htracks hg)
      | _ => simp
    | operator hb | moreStatements _ hb =>
      cases hb with
      | unclosed _ hin | unopened _ hin => simp [hin]
      | _ => simp
    | term ho | operand ho => cases ho <;> simp
    | _ => simp
  · generalize halt.kind = kind at hlacks
    cases hlacks <;> simp [*]

/-- A program without a breach has been read behind its `end`. -/
theorem goals_of_finish {s : State} (h : s.finish = none) (hs : Stage program i s.goals) : s.goals = [] := by
  have hnone (g : Goal) (hg : g ∈ s.goals) : ∃ here, g.onEnd s.scope here = none := by
    unfold State.finish at h
    split at h
    · cases h
    · exact ⟨_, List.findSome?_eq_none_iff.mp h g hg⟩
  generalize s.goals = goals at hs hnone
  cases hs with
  | heading =>
    obtain ⟨_, h⟩ := hnone .programWord (by simp)
    cases h
  | declaring =>
    obtain ⟨_, h⟩ := hnone .beginWord (by simp)
    cases h
  | body =>
    obtain ⟨_, h⟩ := hnone .endWord (by simp)
    cases h
  | done => rfl

/-- The scope table mirrors the brackets at every place that a run reaches and where it stops. So no name is declared at
the global level, a bracket is refused as not opened only where none is open, one is awaited only where some is open, and
in a program without a breach the brackets between `begin` and `end` are balanced and the program's block is left as the
current one. -/
theorem reports_of_brackets (program : List Lexeme) :
    (∀ i s, i ≤ program.length → Reaches program i s → Outlined program i s.scope) ∧
    (∃ i s halt?, Stops program i s halt? ∧ breach? program = halt? ∧ Outlined program i (analyze program).scope) ∧
    (∀ d, (analyze program).diagnostic? = some d →
      d.kind ≠ .globalDeclaration ∧
      (d.kind = .unexpectedCompoundEnd → (analyze program).scope.openCompounds = 0) ∧
      (d.kind = .awaitedName "]" → 0 < (analyze program).scope.openCompounds)) ∧
    ((analyze program).diagnostic? = none →
      (analyze program).scope.current? = some programPlace ∧ (analyze program).scope.currentKind = .program ∧
      ∃ b e, standsAt program .beginWord b ∧ standsAt program .endWord e ∧ b < e ∧ Balanced program b e) := by
  obtain ⟨i, s, halt?, hstops⟩ := exists_stops program
  have houtlined := outlined_of_reaches hstops.le_length hstops.reaches
  obtain ⟨hs, htracks⟩ := tracks_of_reaches hstops.le_length hstops.reaches
  obtain ⟨hdepth, hin⟩ := hs.openBrackets htracks
  rw [hstops.analyze_eq]
  refine ⟨fun i s hi h => outlined_of_reaches hi h, ⟨i, s, halt?, hstops, hstops.breach?_eq, houtlined⟩, ?_, ?_⟩
  · intro d hd
    obtain ⟨halt, rfl, rfl⟩ := Option.map_eq_some_iff.mp hd
    obtain ⟨hglobal, hend, hawaited⟩ := open_of_stops hstops
    refine ⟨hglobal, fun hk => ?_, fun hk => ?_⟩
    · have hclosed := hend hk
      rw [hin] at hclosed
      rw [hdepth]
      simpa using hclosed
    · have hopen := hawaited hk
      rw [hin] at hopen
      rw [hdepth]
      simpa [List.length_pos_iff] using hopen
  · intro hd
    obtain rfl : halt? = none := by simpa using hd
    have hnil := goals_of_finish hstops.of_none.2 hs
    rw [hnil] at hs
    obtain ⟨b, e, hp, hb, hend, hne⟩ : ∃ b e, Passed program i true true true ∧ BegunAt program e b ∧
        standsAt program .endWord e ∧ openBrackets program e = [] := by
      generalize hgoals : ([] : List Goal) = goals at hs
      cases hs with
      | done hp _ hb _ hend hne => exact ⟨_, _, hp, hb, hend, hne⟩
      | heading => cases hgoals
      | declaring | body => simp at hgoals
    have hcurrent : s.scope.current? = some programPlace := by
      rw [htracks.current, hp.currentPlace?_eq]
      rfl
    refine ⟨hcurrent, ?_, b, e, hb.2.1, hend, hb.1, ?_⟩
    · rw [ScopeTable.currentKind, hcurrent, Option.elim_some, ScopeTable.kindOf_eq_outline, htracks.outline_eq,
        hp.outline_eq]
      rfl
    · obtain ⟨_, _, hbranching⟩ := branching_of_reaches hstops.le_length hstops.reaches
      have he : e < program.length := lt_length_of_standsAt hend
      have hi : i = program.length := hstops.of_none.1
      rw [balanced_iff (Nat.le_of_lt hb.1) fun k hk => hbranching.closes k (by omega)]
      exact hb.2.2.trans hne.symm

/-- Blocks inside each other and one behind the other. -/
def bracketed : List Lexeme :=
  tokenize .builtin "program var int x ; begin [ x := 1 [ x := 2 ] ] ; [ var bool x x := true ] end"

/-- A bracket that closes none. -/
def unopened : List Lexeme :=
  tokenize .builtin "program begin [ ] ; ] end"

/-- A bracket that is not closed. -/
def unclosed : List Lexeme :=
  tokenize .builtin "program begin [ [ ] end"

theorem reports_of_bracketed_unopened_unclosed :
    ((analyze bracketed).diagnostic? = none ∧ (analyze bracketed).scope.current? = some programPlace ∧
      ∃ b e, standsAt bracketed .beginWord b ∧ standsAt bracketed .endWord e ∧ b < e ∧ Balanced bracketed b e) ∧
    ((analyze unopened).diagnostic? = some ⟨.unexpectedCompoundEnd, lexemeAt unopened 5⟩ ∧
      (analyze unopened).scope.openCompounds = 0) ∧
    ((analyze unclosed).diagnostic? = some ⟨.awaitedName "]", lexemeAt unclosed 5⟩ ∧
      0 < (analyze unclosed).scope.openCompounds) := by
  have hbracketed : (analyze bracketed).diagnostic? = none := by decide +kernel
  have hunopened : (analyze unopened).diagnostic? = some ⟨.unexpectedCompoundEnd, lexemeAt unopened 5⟩ := by
    decide +kernel
  have hunclosed : (analyze unclosed).diagnostic? = some ⟨.awaitedName "]", lexemeAt unclosed 5⟩ := by
    decide +kernel
  obtain ⟨hcurrent, _, hbalanced⟩ := (reports_of_brackets bracketed).2.2.2 hbracketed
  exact ⟨⟨hbracketed, hcurrent, hbalanced⟩, ⟨hunopened, ((reports_of_brackets unopened).2.2.1 _ hunopened).2.1 rfl⟩,
    hunclosed, ((reports_of_brackets unclosed).2.2.1 _ hunclosed).2.2 rfl⟩

end MiniPascal
