import MiniPascal.Proofs.Grammar.Operators

/-!
# Reading whole programs

A well-scoped program is read to its end if the analysis counts all its statements within the limit, and is too deep
otherwise (`gets_program`).

* The goals between `begin` and `end` are the same behind every operator (`gets_operators`): outside brackets nothing
  that an operator leaves on the stack holds back a semicolon or the `end`.
-/

namespace MiniPascal

variable {goals rest : List Goal} {t t' : ScopeTable} {frames frames' : List Frame} {ws : List Word} {start start' : Config}
  {kept kept' : Bool}

/-- Reading on leads to the given goals with the given frames if the count keeps within the limit, and is too deep if it
does not. -/
def Gets (kept : Bool) (start : Config) (goals : List Goal) (ws : List Word) (frames : List Frame) : Prop :=
  if kept then ∃ t, t.Shows frames ∧ Leads start ⟨goals, t, ws⟩ else TooDeep start

theorem Gets.of_leads (h : Leads start start') (h' : Gets kept start' goals ws frames) : Gets kept start goals ws frames := by
  cases kept with
  | false => exact h.tooDeep h'
  | true =>
    obtain ⟨t, ht, hleads⟩ := h'
    exact ⟨t, ht, h.trans hleads⟩

/-- Of two parts both have to keep within the limit. -/
theorem Gets.and {goals' : List Goal} {ws' : List Word} (h : Gets kept start goals ws frames)
    (h' : ∀ {t}, t.Shows frames → Gets kept' ⟨goals, t, ws⟩ goals' ws' frames') :
    Gets (kept && kept') start goals' ws' frames' := by
  cases kept with
  | false => exact h
  | true =>
    obtain ⟨t, ht, hleads⟩ := h
    exact (h' ht).of_leads hleads

/-! ## Between `begin` and `end` -/

/-- The goals behind an operator. -/
def behindOperator : List Goal :=
  [.moreOperators, .endWord]

/-- What stands outside all brackets. -/
theorem outside_of_shape (h : shape frames = [false, false]) :
    compoundsIn frames = 0 ∧ frames.head?.any (·.compound) = false := by
  have h : shape frames = shape [⟨false, []⟩, ⟨false, []⟩] := h
  rw [compoundsIn_congr h, inCompound_congr h]
  exact ⟨rfl, rfl⟩

/-- What goes on with an operator that stands outside brackets. -/
def inOperator : List Category := .conditional :: inCondition

/-- An operator and the goals that it leaves are read up to a word that goes on with none of them. -/
theorem gets_operator {o : Operator} {w : Word} (ht : t.Shows frames) (hshape : shape frames = [false, false])
    (h : o.scope? frames = some frames') (hw : w.category ∉ inOperator) :
    Gets o.keepsLimit ⟨.operator .outermost :: behindOperator, t, o.words ++ w :: ws⟩ behindOperator (w :: ws) frames' := by
  have hp : Pending behindOperator Tally.outermost.depth Tally.outermost.waiting behindOperator := .base
  have hends : Ends inCondition (w :: ws) := (ends_cons hw).mono (by decide)
  have hcomes := comes_operator o ht h hp hends
  rw [(outside_of_shape hshape).1] at hcomes
  rw [Operator.keepsLimit]
  cases hc : o.tally? 0 .outermost with
  | none =>
    rw [hc] at hcomes
    exact hcomes
  | some c =>
    rw [hc] at hcomes
    obtain ⟨t', goals, ht', hp', hleads⟩ := hcomes
    have hin : t'.inCompound = false := by
      rw [ht'.inCompound, inCompound_congr (shape_scope? o h)]
      exact (outside_of_shape hshape).2
    have hsub : [Category.comment, .conditional] ⊆ inOperator := by decide
    exact ⟨t', ht', hleads.trans (leads_pending hin hp'.top fun hmem => hw (hsub hmem))⟩

/-- Operators with a semicolon behind each are read. -/
theorem gets_operators {os : List Operator} (ht : t.Shows frames) (hshape : shape frames = [false, false])
    (h : Operator.scopeOfAll? os frames = some frames') :
    Gets (os.all (·.keepsLimit)) ⟨.operator .outermost :: behindOperator, t,
      (os.flatMap fun o => o.words ++ [semicolonWord]) ++ ws⟩ (.operator .outermost :: behindOperator) ws frames' := by
  induction os generalizing t frames with
  | nil =>
    cases h
    exact ⟨t, ht, Leads.refl _⟩
  | cons o os ih =>
    obtain ⟨frames₁, ho, hos⟩ := Option.bind_eq_some_iff.mp h
    have hshape₁ := (shape_scope? o ho).trans hshape
    simp only [List.flatMap_cons, List.append_assoc, List.all_cons, List.cons_append, List.nil_append]
    refine (gets_operator ht hshape ho (by decide)).and fun ht₁ => ?_
    have hsemicolon : ∀ {t ws}, Leads ⟨behindOperator, t, semicolonWord :: ws⟩
        ⟨.operator .outermost :: behindOperator, t, ws⟩ := fun {t} =>
      leads_take [.operator .outermost, .moreOperators] (by simp) fun n => rfl
    exact (ih ht₁ hshape₁ hos).of_leads hsemicolon

/-- The word `end` is read behind operators. -/
theorem leads_end : Leads ⟨behindOperator, t, [⟨.endWord, "end"⟩]⟩ ⟨[], t.closeBlock, []⟩ := by
  have hmore : Leads ⟨behindOperator, t, [⟨.endWord, "end"⟩]⟩ ⟨[.endWord], t, [⟨.endWord, "end"⟩]⟩ :=
    leads_pass (by simp) fun n => rfl
  have hend : Leads ⟨[.endWord], t, [⟨.endWord, "end"⟩]⟩ ⟨[], t.closeBlock, []⟩ :=
    leads_take [] (by simp) fun n => rfl
  exact hmore.trans hend

/-- The last operator and the word `end` are read. -/
theorem gets_ending {e : Ending} (ht : t.Shows frames) (hshape : shape frames = [false, false])
    (h : e.scope? frames = some frames') :
    Gets e.keepsLimit ⟨.operator .outermost :: behindOperator, t, e.words ++ [⟨.endWord, "end"⟩]⟩ [] [] frames'.tail := by
  cases e with
  | operator o =>
    have ho : Gets o.keepsLimit ⟨.operator .outermost :: behindOperator, t, o.words ++ [⟨.endWord, "end"⟩]⟩
        behindOperator [⟨.endWord, "end"⟩] frames' := gets_operator ht hshape h (by decide)
    rw [← Bool.and_true (Ending.keepsLimit _)]
    exact ho.and fun {t} ht => ⟨t.closeBlock, ht.closeBlock, leads_end⟩
  | empty lists =>
    have hkeeps : ∀ {t : ScopeTable} {frames₁ : List Frame}, t.Shows frames₁ → shape frames₁ = shape frames →
        t.hasRoom Context.outermost.depth = true := fun ht hs => by
      rw [ht.hasRoom_iff, (outside_of_shape (hs.trans hshape)).1]
      decide
    have hends : Ends inList [⟨.endWord, "end"⟩] := ends_cons (by decide)
    obtain ⟨t', ht', hlists⟩ := leads_lists ht h hends fun ht₁ hs n => onLexeme_operator_var (hkeeps ht₁ hs) n
    have hshape' := shape_declareAll? h
    have hin : t'.inCompound = false := by
      rw [ht'.inCompound]
      exact (outside_of_shape (hshape'.trans hshape)).2
    have hpass : Leads ⟨.operator .outermost :: behindOperator, t', [⟨.endWord, "end"⟩]⟩
        ⟨behindOperator, t', [⟨.endWord, "end"⟩]⟩ :=
      leads_pass (by simp) fun n => by simp [beginStatement, hkeeps ht' hshape', hin]
    exact ⟨t'.closeBlock, ht'.closeBlock, hlists.trans (hpass.trans leads_end)⟩

/-! ## Whole programs -/

/-- The words of a well-scoped program are read to the end, or are too deep. -/
theorem gets_program {p : Program} (h : p.scope? = some frames) :
    Gets p.keepsLimit ⟨[.programWord], .empty, p.words⟩ [] [] frames.tail := by
  obtain ⟨frames₂, hbind, hending⟩ := Option.bind_eq_some_iff.mp h
  obtain ⟨frames₁, hlists, hoperators⟩ := Option.bind_eq_some_iff.mp hbind
  have ht : (ScopeTable.empty.openInner .program).Shows [⟨false, []⟩] := ScopeTable.shows_empty.openInner .program
  have hprogram : ∀ {ws}, Leads ⟨[.programWord], .empty, ⟨.programWord, "program"⟩ :: ws⟩
      ⟨[.variableLists, .beginWord], ScopeTable.empty.openInner .program, ws⟩ :=
    leads_take [.variableLists, .beginWord] (by simp) fun n => rfl
  have hends : ∀ {ws}, Ends inList (⟨.beginWord, "begin"⟩ :: ws) := ends_cons (by decide)
  obtain ⟨t₁, ht₁, hvars⟩ := leads_lists (g := .variableLists) ht hlists hends fun _ _ n => rfl
  have hpass : ∀ {ws}, Leads ⟨[.variableLists, .beginWord], t₁, ⟨.beginWord, "begin"⟩ :: ws⟩
      ⟨[.beginWord], t₁, ⟨.beginWord, "begin"⟩ :: ws⟩ :=
    leads_pass (by simp) fun n => rfl
  have hbegin : ∀ {ws}, Leads ⟨[.beginWord], t₁, ⟨.beginWord, "begin"⟩ :: ws⟩
      ⟨.operator .outermost :: behindOperator, t₁.openInner .body, ws⟩ :=
    leads_take (.operator .outermost :: behindOperator) (by simp) fun n => rfl
  have hshape : shape (⟨false, []⟩ :: frames₁) = [false, false] := by
    simp [shape_declareAll? hlists]
  have hshape₂ := (shape_scopeOfAll? p.operators hoperators).trans hshape
  have hbody := (gets_operators (ht₁.openInner .body) hshape hoperators).and fun ht => gets_ending ht hshape₂ hending
  simp only [Program.words, List.cons_append, List.append_assoc]
  exact hbody.of_leads (hprogram.trans (hvars.trans (hpass.trans hbegin)))

/-- The breach of a program that is written as a tree. -/
theorem breach?_of_words {p : Program} {program : List Lexeme} (hw : program.map (·.word) = p.words)
    (h : p.scope? = some frames) :
    if p.keepsLimit then breach? program = none else ∃ i, breach? program = some ⟨.nestingTooDeep, i⟩ := by
  have hrun : breach? program = (State.run .initial (p.words.map (·.lexeme))).1 := by
    rw [breach?, run_congr (hw.trans (words_lexemes p.words).symm)]
  have hgets := gets_program h
  rw [hrun, State.run_fst]
  split
  case isTrue hkeeps =>
    rw [hkeeps] at hgets
    obtain ⟨t, _, hleads⟩ := hgets
    obtain ⟨m, hm⟩ := hleads 0
    have hm : State.after .initial (p.words.map (·.lexeme)) = .ok ⟨[], t, m, .outside none⟩ := hm
    rw [hm]
    rfl
  case isFalse hkeeps =>
    rw [Bool.not_eq_true] at hkeeps
    rw [hkeeps] at hgets
    obtain ⟨i, hi⟩ := hgets 0
    have hi : State.after .initial (p.words.map (·.lexeme)) = .error ⟨.nestingTooDeep, i⟩ := hi
    rw [hi]
    exact ⟨i, rfl⟩

/-! ## Reports -/

/-- A well-scoped program that is written as its tree has it is reported for nothing but its depth. -/
theorem reports_nothing_or_nestingTooDeep {p : Program} {program : List Lexeme}
    (hw : program.map (·.word) = p.words) (h : p.WellScoped) :
    (analyze program).diagnostic? = none ∨ ∃ x, (analyze program).diagnostic? = some ⟨.nestingTooDeep, x⟩ := by
  obtain ⟨frames, hs⟩ := Option.isSome_iff_exists.mp h
  have hbreach := breach?_of_words hw hs
  rw [diagnostic?_analyze]
  split at hbreach
  · rw [hbreach]
    exact .inl rfl
  · obtain ⟨i, hi⟩ := hbreach
    rw [hi]
    exact .inr ⟨lexemeAt program i, rfl⟩

/-- A program with a loop, a block and both branches of a conditional. -/
def countdown : Program where
  lists := [⟨.int, "n", ["m"], true⟩]
  operators := [.read "n" ["m"]]
  ending := .operator (.whileDo ⟨⟨⟨none, .named "n"⟩, []⟩, [(.relation ">", ⟨⟨none, .literal "0"⟩, []⟩)]⟩
    (.block
      [.ifElse ⟨⟨⟨none, .named "m"⟩, []⟩, []⟩
        (.assign ⟨"n", ":=", ⟨⟨none, .named "n"⟩, [(.addition "-", ⟨none, .named "m"⟩)]⟩⟩)
        (.declaring ⟨.bool, "m", [], false⟩ (.assign ⟨"m", ":=", ⟨⟨none, .literal "true"⟩, []⟩⟩)),
      .write ⟨⟨⟨none, .named "n"⟩, []⟩, []⟩ []] []))

theorem countdown_reports :
    (countdown.words.map (·.lexeme)).map (·.word) = countdown.words ∧ countdown.WellScoped ∧
      ((analyze (countdown.words.map (·.lexeme))).diagnostic? = none ∨
        ∃ x, (analyze (countdown.words.map (·.lexeme))).diagnostic? = some ⟨.nestingTooDeep, x⟩) :=
  have hw := words_lexemes countdown.words
  have hs : countdown.WellScoped := by decide
  ⟨hw, hs, reports_nothing_or_nestingTooDeep hw hs⟩

/-- A well-scoped program is too deep exactly if the analysis counts some statement or block beyond the limit, as it does
if a statement lies beyond it. -/
theorem reports_nestingTooDeep_iff {p : Program} {program : List Lexeme}
    (hw : program.map (·.word) = p.words) (h : p.WellScoped) :
    ((∃ x, (analyze program).diagnostic? = some ⟨.nestingTooDeep, x⟩) ↔ p.keepsLimit = false) ∧
      (maxNesting < p.nesting → p.keepsLimit = false) := by
  obtain ⟨frames, hs⟩ := Option.isSome_iff_exists.mp h
  have hbreach := breach?_of_words hw hs
  constructor
  · rw [diagnostic?_analyze]
    split at hbreach
    case isTrue hkeeps =>
      rw [hbreach, hkeeps]
      simp
    case isFalse hkeeps =>
      obtain ⟨i, hi⟩ := hbreach
      rw [hi]
      exact ⟨fun _ => Bool.not_eq_true _ ▸ hkeeps, fun _ => ⟨lexemeAt program i, rfl⟩⟩
  · intro hdeep
    rw [← Bool.not_eq_true]
    intro hkeeps
    have := nesting_le_of_keepsLimit hkeeps
    omega

theorem countdown_not_tooDeep :
    (countdown.words.map (·.lexeme)).map (·.word) = countdown.words ∧ countdown.WellScoped ∧
      ¬ ∃ x, (analyze (countdown.words.map (·.lexeme))).diagnostic? = some ⟨.nestingTooDeep, x⟩ :=
  have hw := words_lexemes countdown.words
  have hs : countdown.WellScoped := by decide
  ⟨hw, hs, fun hdeep => absurd ((reports_nestingTooDeep_iff hw hs).1.mp hdeep) (by decide)⟩

/-- Loops that stand one behind the other in a block. -/
def flatLoops (n : Nat) : Program where
  lists := [⟨.bool, "b", [], true⟩]
  operators := []
  ending := .operator (.block (List.replicate n
    (.whileDo ⟨⟨⟨none, .named "b"⟩, []⟩, []⟩ (.assign ⟨"b", ":=", ⟨⟨none, .named "b"⟩, []⟩⟩))) [])

/-- No statement lies in more than one body and one block, yet the last of 48 loops is too deep. -/
theorem flatLoops_tooDeep :
    (flatLoops 48).WellScoped ∧ (flatLoops 48).nesting = 2 ∧
      ∃ x, (analyze ((flatLoops 48).words.map (·.lexeme))).diagnostic? = some ⟨.nestingTooDeep, x⟩ := by
  have hs : (flatLoops 48).WellScoped := by decide +kernel
  obtain ⟨frames, hframes⟩ := Option.isSome_iff_exists.mp hs
  have hbreach := breach?_of_words (words_lexemes (flatLoops 48).words) hframes
  rw [if_neg (by decide +kernel)] at hbreach
  obtain ⟨i, hi⟩ := hbreach
  rw [diagnostic?_analyze, hi]
  exact ⟨hs, by decide +kernel, lexemeAt _ i, rfl⟩

end MiniPascal
