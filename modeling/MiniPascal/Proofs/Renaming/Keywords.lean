import Mathlib.Data.List.Forall2
import MiniPascal.Dictionary.Builtin
import MiniPascal.Proofs.Analysis.Refuses
import MiniPascal.Proofs.Analysis.Takes
import MiniPascal.Proofs.Grammar.Leads

/-!
# Programs with other keywords

The words of most categories are known by their category alone, so other spellings of them lead to the same report.
There is one exception: a loop asks for the very spelling `do`.

* `Respelled`: two lexemes of one category, and of one spelling where names, types, conditionals, counting loops,
  comments and parentheses are concerned.
* `onLexeme_respelled`: a goal treats them alike, unless it awaits a `do` that one of them misspells.
* `run_respelled`: so do two runs, up to a misspelled `do`.
* `reportsAlike_iff`: two reports are alike exactly if neither of them is about a misspelled `do`.
-/

namespace MiniPascal

variable {program other rest rest' : List Lexeme} {t t' : ScopeTable} {here : Place} {x y : Lexeme} {g : Goal}
  {goals new : List Goal} {s s' : State} {context : Context} {type : DataType} {expected : Option DataType} {i : Nat}

/-! ## Other spellings -/

/-- The categories whose words are told apart by their spelling. -/
def spelledCategories : List Category :=
  [.unclassified, .typeWord, .conditional, .cycle, .comment, .parenthesis]

/-- A lexeme may stand in place of another one: it has the same category, and where spellings are told apart the same
spelling. -/
structure Respelled (x y : Lexeme) : Prop where
  category : y.category = x.category
  text : x.category ∈ spelledCategories → y.text = x.text

/-- A lexeme is a word for `do` that is spelled otherwise than the one in its place. -/
structure Misspells (x y : Lexeme) : Prop where
  category : x.category = .doWord
  text : x.text ≠ "do"
  canonical : y.is .doWord "do"

/-- The kind of a breach, not told apart where a word cannot be the name of a variable. -/
def DiagnosticKind.merged : DiagnosticKind → DiagnosticKind
  | .reservedVariableName => .badVariableName
  | kind => kind

def Halt.merged (h : Halt) : Halt := ⟨h.kind.merged, h.index⟩

def Reaction.merged : Reaction → Reaction
  | .refuse halt => .refuse halt.merged
  | r => r

/-! ## Words that are awaited -/

/-- The single words that a statement awaits. -/
def awaitedWords : List Word :=
  [⟨.doWord, "do"⟩, ⟨.cycle, "to"⟩, ⟨.conditional, "then"⟩, ⟨.parenthesis, "("⟩, ⟨.parenthesis, ")"⟩]

/-- A single word that is awaited is one of those of a statement. -/
def Goal.Awaits : Goal → Prop
  | .word category text => ⟨category, text⟩ ∈ awaitedWords
  | _ => True

theorem awaits_of_begins (h : Begins t x context t' new) : ∀ g ∈ new, g.Awaits := by
  cases h <;>
    simp [Goal.Awaits, awaitedWords]

theorem awaits_of_takes (h : g.Takes t here x t' new) : ∀ g ∈ new, g.Awaits := by
  cases h with
  | operator hb | moreStatements hb => exact awaits_of_begins hb
  | _ => simp [Goal.Awaits]

theorem awaits_of_moves (hs : ∀ g ∈ s.goals, g.Awaits) (h : Moves s x s') : ∀ g ∈ s'.goals, g.Awaits := by
  cases h with
  | skip | comment => exact hs
  | goal _ _ hgoals _ hg =>
    intro g' hmem
    rcases List.mem_append.mp hmem with hmem | hmem
    · exact awaits_of_takes (takes_of_onLexeme hg) g' hmem
    · exact hs g' (by simp [hgoals, hmem])

theorem awaits_of_reaches (hi : i ≤ program.length) (h : Reaches program i s) : ∀ g ∈ s.goals, g.Awaits :=
  invariant_of_step (P := fun _ s => ∀ g ∈ s.goals, g.Awaits) (by simp [State.initial, Goal.Awaits])
    (fun _ hs hm => awaits_of_moves hs hm) hi h

/-- A `do` is never refused for another one. -/
theorem not_canonical_of_breach? (h : breach? program = some ⟨.awaitedWord "do", i⟩) (hx : program[i]? = some x) :
    ¬ x.is .doWord "do" := by
  have hi : i ≠ program.length := by
    have := (List.getElem?_eq_some_iff.mp hx).1
    omega
  rcases refused_of_breach h (by simp [strayKinds]) with
    ⟨y, s, loose?, passed, g, rest, hy, hs, hgoals, _, hg⟩ | ⟨hend, _⟩
  · obtain rfl : x = y := Option.some.inj (hx.symm.trans (wordAt?_eq_some.mp hy).1)
    have hle := Nat.le_of_lt (List.getElem?_eq_some_iff.mp hx).1
    have hawaits : g.Awaits := awaits_of_reaches hle hs g (by simp [hgoals])
    rcases refuses_of_onLexeme hg with ⟨_, hrefuses⟩ | ⟨_, _, hk⟩
    · generalize hkind : DiagnosticKind.awaitedWord "do" = kind at hrefuses
      cases hrefuses with
      | word hx =>
        cases hkind
        obtain rfl : _ = Category.doWord := by simpa [Goal.Awaits, awaitedWords] using hawaits
        simp [hx]
      | variableName hn => cases hn <;> cases hkind
      | operator hb | moreStatements _ hb => cases hb <;> simp at hkind
      | term ho | operand ho => cases ho <;> simp at hkind
      | _ => cases hkind
    · cases hk
  · exact absurd hend hi

/-! ## Reactions -/

section Reactions

variable (hc : y.category = x.category) (hx : x.category ∉ spelledCategories)

include hc hx

theorem resolve?_unspelled : x.resolve? t = none ∧ y.resolve? t = none := by
  have hu : x.category ≠ .unclassified := fun h => hx (by simp [h, spelledCategories])
  exact ⟨if_neg hu, if_neg (hc ▸ hu)⟩

theorem takeOperand_unspelled : takeOperand t here y expected = takeOperand t here x expected := by
  have hu : x.category ≠ .unclassified := fun h => hx (by simp [h, spelledCategories])
  rw [takeOperand, if_pos (hc ▸ hu), takeOperand, if_pos hu]

/-- What is no name is refused as the one or the other. -/
theorem declareName_unspelled : (declareName t here y type).merged = (declareName t here x type).merged := by
  have hu : x.category ≠ .unclassified := fun h => hx (by simp [h, spelledCategories])
  have hrefused {z : Lexeme} (hz : z.category ≠ .unclassified) :
      (declareName t here z type).merged = here.refuse .badVariableName := by
    unfold declareName
    split
    · rfl
    · rfl
  rw [hrefused hu, hrefused (hc ▸ hu)]

theorem beginStatement_unspelled : beginStatement t here y context = beginStatement t here x context := by
  unfold beginStatement
  rw [hc]
  split
  · rfl
  cases hcategory : x.category with
  | unclassified | typeWord | conditional | cycle | comment | parenthesis =>
    exact absurd (by simp [hcategory, spelledCategories]) hx
  | _ => rfl

/-- Where spellings are not told apart a goal does not see one, unless it awaits a `do`. -/
theorem onLexeme_unspelled (t : ScopeTable) (here : Place) (hg : g.Awaits) :
    (g.onLexeme t here y).merged = (g.onLexeme t here x).merged ∨ g = .word .doWord "do" ∧ x.category = .doWord := by
  cases g with
  | operator context => exact .inl (congrArg _ (beginStatement_unspelled hc hx))
  | moreStatements context =>
    refine .inl (congrArg _ ?_)
    simp only [Goal.onLexeme, beginStatement_unspelled hc hx]
  | variableName type => exact .inl (declareName_unspelled hc hx)
  | operand expected => exact .inl (congrArg _ (takeOperand_unspelled hc hx))
  | term expected =>
    refine .inl (congrArg _ ?_)
    simp only [Goal.onLexeme, hc, takeOperand_unspelled hc hx]
  | target | readTarget =>
    obtain ⟨hnone, hnone'⟩ := resolve?_unspelled (t := t) hc hx
    exact .inl (by simp only [Goal.onLexeme, assignTo, hnone, hnone'])
  | typeName =>
    have ht : x.category ≠ .typeWord := fun h => hx (by simp [h, spelledCategories])
    exact .inl (by simp only [Goal.onLexeme, Lexeme.namedType?, hc, if_neg ht])
  | elseBranch context =>
    have hi : x.category ≠ .conditional := fun h => hx (by simp [h, spelledCategories])
    exact .inl (by simp [hc, hi])
  | word category text =>
    by_cases hw : x.category = category
    · right
      simp only [Goal.Awaits, awaitedWords, ← hw, List.mem_cons, List.not_mem_nil, or_false, Word.mk.injEq] at hg
      simp only [spelledCategories, List.mem_cons, List.not_mem_nil, or_false, not_or] at hx
      simp only [hx, false_and, or_false] at hg
      exact ⟨by rw [← hw, hg.1, hg.2], hg.1⟩
    · exact .inl (by simp [hc, hw])
  | _ =>
    left
    simp only [Goal.onLexeme, hc]

end Reactions

theorem Respelled.word_eq (h : Respelled x y) (hx : x.category ∈ spelledCategories) : y.word = x.word := by
  rw [Lexeme.word, h.category, h.text hx, Lexeme.word]

/-- A goal treats the two lexemes alike, unless it awaits a `do` that one of them misspells. -/
theorem onLexeme_respelled (t : ScopeTable) (here : Place) (h : Respelled x y) (hg : g.Awaits) :
    (g.onLexeme t here y).merged = (g.onLexeme t here x).merged ∨
      g = .word .doWord "do" ∧ (Misspells x y ∨ Misspells y x) := by
  by_cases hx : x.category ∈ spelledCategories
  · exact .inl (by rw [onLexeme_congr (h.word_eq hx)])
  rcases onLexeme_unspelled h.category hx t here hg with halike | ⟨rfl, hdo⟩
  · exact .inl halike
  have hdo' := h.category.trans hdo
  by_cases htext : x.text = "do"
  · by_cases htext' : y.text = "do"
    · exact .inl (by simp [hdo, hdo', htext, htext'])
    · exact .inr ⟨rfl, .inr ⟨hdo', htext', Lexeme.is_iff.mpr ⟨hdo, htext⟩⟩⟩
  · by_cases htext' : y.text = "do"
    · exact .inr ⟨rfl, .inl ⟨hdo, htext, Lexeme.is_iff.mpr ⟨hdo', htext'⟩⟩⟩
    · exact .inl (by simp [hdo, hdo', htext, htext'])

theorem Misspells.onLexeme (h : Misspells x y) :
    (Goal.word .doWord "do").onLexeme t here x = here.refuse (.awaitedWord "do") := by
  simp [h.category, h.text]

/-- What a stack does with the two lexemes. -/
inductive OffersAlike (t : ScopeTable) (here : Place) (x y : Lexeme) (goals : List Goal) : Prop
  | alike (h : (offer t here y goals).merged = (offer t here x goals).merged)
  | first (hm : Misspells x y) (h : offer t here x goals = here.refuse (.awaitedWord "do"))
  | second (hm : Misspells y x) (h : offer t here y goals = here.refuse (.awaitedWord "do"))

theorem merged_offer_cons :
    (offer t here x (g :: goals)).merged =
      match (g.onLexeme t here x).merged with
      | .take t' new => .take t' (new ++ goals)
      | .pass => (offer t here x goals).merged
      | .refuse halt => .refuse halt := by
  rw [offer]
  cases g.onLexeme t here x <;> rfl

theorem offer_of_pass (h : (g.onLexeme t here x).merged = .pass) :
    offer t here x (g :: goals) = offer t here x goals := by
  rw [offer]
  cases hg : g.onLexeme t here x with
  | pass => rfl
  | take | refuse =>
    rw [hg] at h
    cases h

theorem offer_respelled (t : ScopeTable) (here : Place) (h : Respelled x y) (hgoals : ∀ g ∈ goals, g.Awaits) :
    OffersAlike t here x y goals := by
  induction goals with
  | nil => exact .alike rfl
  | cons g rest ih =>
    rcases onLexeme_respelled t here h (hgoals g List.mem_cons_self) with halike | ⟨rfl, hm | hm⟩
    · cases hg : (g.onLexeme t here x).merged with
      | pass =>
        have hx : offer t here x (g :: rest) = offer t here x rest := offer_of_pass hg
        have hy : offer t here y (g :: rest) = offer t here y rest := offer_of_pass (halike.trans hg)
        cases ih fun g' hg' => hgoals g' (List.mem_cons_of_mem _ hg') with
        | alike h => exact .alike (by rw [hx, hy, h])
        | first hm h => exact .first hm (hx.trans h)
        | second hm h => exact .second hm (hy.trans h)
      | take | refuse => exact .alike (by rw [merged_offer_cons, merged_offer_cons, halike, hg])
    · exact .first hm (by rw [offer, hm.onLexeme]; rfl)
    · exact .second hm (by rw [offer, hm.onLexeme]; rfl)

/-! ## Runs -/

/-- What a step over the two lexemes leads to. -/
inductive StepsAlike (s : State) (x y : Lexeme) : Prop
  | ok {next : State} (hx : s.step x = .ok next) (hy : s.step y = .ok next)
  | error {halt halt' : Halt} (hx : s.step x = .error halt) (hy : s.step y = .error halt')
      (h : halt'.merged = halt.merged)
  | first (hm : Misspells x y) (hx : s.step x = .error ⟨.awaitedWord "do", s.read⟩)
  | second (hm : Misspells y x) (hy : s.step y = .error ⟨.awaitedWord "do", s.read⟩)

theorem StepsAlike.of_eq (h : s.step y = s.step x) : StepsAlike s x y := by
  cases hx : s.step x with
  | ok next => exact .ok hx (h.trans hx)
  | error halt => exact .error hx (h.trans hx) rfl

theorem step_respelled (h : Respelled x y) (hs : ∀ g ∈ s.goals, g.Awaits) : StepsAlike s x y := by
  by_cases hx : x.category ∈ spelledCategories
  · exact .of_eq (step_congr (h.word_eq hx) s)
  have hc : x.category ≠ .comment := fun hc => hx (by simp [hc, spelledCategories])
  have hc' : y.category ≠ .comment := h.category ▸ hc
  cases hm : s.margin with
  | inside opening mark =>
    refine .of_eq ?_
    rw [State.step_of_inside hm, State.step_of_inside hm]
    simp [readInside, hc, hc']
  | outside loose? =>
    have hstep := State.step_of_word hm hc
    have hstep' := State.step_of_word hm hc'
    cases offer_respelled s.scope ⟨s.read, loose?⟩ h hs with
    | alike hoffer =>
      cases hx : offer s.scope ⟨s.read, loose?⟩ x s.goals <;>
        cases hy : offer s.scope ⟨s.read, loose?⟩ y s.goals <;> rw [hx, hy] at hoffer
      case take.take =>
        cases hoffer
        rw [hx] at hstep
        rw [hy] at hstep'
        exact .ok hstep hstep'
      case pass.pass =>
        rw [hx] at hstep
        rw [hy] at hstep'
        exact .error hstep hstep' rfl
      case refuse.refuse =>
        rw [hx] at hstep
        rw [hy] at hstep'
        exact .error hstep hstep' (Reaction.refuse.inj hoffer)
      all_goals cases hoffer
    | first hm hoffer => exact .first hm (by rw [hstep, hoffer]; rfl)
    | second hm hoffer => exact .second hm (by rw [hstep', hoffer]; rfl)

/-- Two runs leave the same blocks, and none or both of them break a rule, at the same index. -/
structure RunsAlike (s : State) (rest rest' : List Lexeme) : Prop where
  breach : (s.run rest').1.map Halt.merged = (s.run rest).1.map Halt.merged
  scope : (s.run rest').2 = (s.run rest).2

/-- A run halts at a lexeme for want of the `do` in its place. -/
def Stumbles (s : State) (rest rest' : List Lexeme) : Prop :=
  ∃ i x y, rest[i]? = some x ∧ rest'[i]? = some y ∧ Misspells x y ∧
    (s.run rest).1 = some ⟨.awaitedWord "do", s.read + i⟩

theorem Stumbles.cons {next : State} (hx : s.step x = .ok next) (h : Stumbles next rest rest') :
    Stumbles s (x :: rest) (y :: rest') := by
  obtain ⟨i, z, z', hz, hz', hm, hbreach⟩ := h
  refine ⟨i + 1, z, z', hz, hz', hm, ?_⟩
  rw [State.run, hx]
  rw [(moves_of_step hx).read, Nat.add_right_comm] at hbreach
  exact hbreach

theorem run_respelled (h : List.Forall₂ Respelled rest rest') (hs : ∀ g ∈ s.goals, g.Awaits) :
    RunsAlike s rest rest' ∨ Stumbles s rest rest' ∨ Stumbles s rest' rest := by
  induction h generalizing s with
  | nil => exact .inl ⟨rfl, rfl⟩
  | @cons x y rest rest' hxy _ ih =>
    cases step_respelled hxy hs with
    | @ok next hx hy =>
      rcases ih (awaits_of_moves hs (moves_of_step hx)) with ⟨hbreach, hscope⟩ | hstumbles | hstumbles
      · left
        constructor
        · rw [State.run, hy, State.run, hx]
          exact hbreach
        · rw [State.run, hy, State.run, hx]
          exact hscope
      · exact .inr (.inl (hstumbles.cons hx))
      · exact .inr (.inr (hstumbles.cons hy))
    | error hx hy hhalt =>
      left
      constructor
      · rw [State.run, hy, State.run, hx]
        exact congrArg some hhalt
      · rw [State.run, hy, State.run, hx]
    | first hm hx => exact .inr (.inl ⟨0, x, y, rfl, rfl, hm, by rw [State.run, hx]; rfl⟩)
    | second hm hy => exact .inr (.inr ⟨0, y, x, rfl, rfl, hm, by rw [State.run, hy]; rfl⟩)

/-! ## Reports -/

/-- Two analyses leave the same blocks, and none or both of them report a breach, at the same index and of the same rule
(`diagnostic?_analyze`). -/
structure ReportsAlike (program other : List Lexeme) : Prop where
  breach : (breach? other).map Halt.merged = (breach? program).map Halt.merged
  scope : (analyze other).scope = (analyze program).scope

/-- The report on a program is about a `do` that it misspells and another program does not. -/
def MissesDo (program other : List Lexeme) : Prop :=
  ∃ i x y, program[i]? = some x ∧ other[i]? = some y ∧ Misspells x y ∧ breach? program = some ⟨.awaitedWord "do", i⟩

/-- What is merged into another kind of breach is no missing word. -/
theorem eq_of_merged {halt : Halt} {text : String} (h : halt.merged = ⟨.awaitedWord text, i⟩) :
    halt = ⟨.awaitedWord text, i⟩ := by
  obtain ⟨kind, index⟩ := halt
  cases kind <;> cases h
  rfl

/-- The other program does not miss a `do` there. -/
theorem MissesDo.breach_ne (h : MissesDo program other) :
    (breach? other).map Halt.merged ≠ (breach? program).map Halt.merged := by
  obtain ⟨i, x, y, _, hy, hm, hbreach⟩ := h
  intro heq
  rw [hbreach] at heq
  obtain ⟨halt, hother, hmerged⟩ := Option.map_eq_some_iff.mp heq
  rw [eq_of_merged hmerged] at hother
  exact not_canonical_of_breach? hother hy hm.canonical

/-- Other spellings of words that are known by their category lead to a report that is alike, unless one of the two
reports is about a `do` that is misspelled: only this word is asked for by its spelling although its category has no
other. -/
theorem reportsAlike_iff (h : List.Forall₂ Respelled program other) :
    ReportsAlike program other ↔ ¬ MissesDo program other ∧ ¬ MissesDo other program := by
  constructor
  · intro halike
    exact ⟨fun hmisses => hmisses.breach_ne halike.breach, fun hmisses => hmisses.breach_ne halike.breach.symm⟩
  · rintro ⟨hprogram, hother⟩
    have hinitial : ∀ g ∈ State.initial.goals, g.Awaits := by simp [State.initial, Goal.Awaits]
    rcases run_respelled h hinitial with ⟨hbreach, hscope⟩ | ⟨i, x, y, hx, hy, hm, hrun⟩ | ⟨i, x, y, hx, hy, hm, hrun⟩
    · exact ⟨hbreach, hscope⟩
    · exact absurd ⟨i, x, y, hx, hy, hm, hrun.trans (by rw [State.initial, Nat.zero_add])⟩ hprogram
    · exact absurd ⟨i, x, y, hx, hy, hm, hrun.trans (by rw [State.initial, Nat.zero_add])⟩ hother

/-- Where every `do` is spelled so none is missed. -/
theorem not_missesDo (h : ∀ x ∈ program, x.category = .doWord → x.text = "do") : ¬ MissesDo program other := by
  rintro ⟨i, x, y, hx, _, hm, _⟩
  exact hm.text (h x (List.mem_of_getElem? hx) hm.category)

/-- The lexeme with the spelling of its category, if there is one. -/
def Lexeme.respelled (spelling? : Category → Option String) (x : Lexeme) : Lexeme :=
  { x with text := (spelling? x.category).getD x.text }

theorem forall₂_respelled {spelling? : Category → Option String} (h : ∀ c ∈ spelledCategories, spelling? c = none)
    (program : List Lexeme) : List.Forall₂ Respelled program (program.map (·.respelled spelling?)) := by
  rw [List.forall₂_map_right_iff, List.forall₂_same]
  intro x _
  exact ⟨rfl, fun hx => by rw [Lexeme.respelled, h _ hx, Option.getD_none]⟩

/-- A program with a loop. -/
def toggling : List Lexeme :=
  tokenize .builtin "program var bool b begin while b do b := not b end"

/-- Other keywords and operators. -/
def translation : Category → Option String
  | .programWord => some "programme"
  | .varWord => some "soit"
  | .beginWord => some "début"
  | .endWord => some "fin"
  | .whileWord => some "tantque"
  | .becomes => some "←"
  | .unary => some "non"
  | _ => none

theorem reportsAlike_translated :
    List.Forall₂ Respelled toggling (toggling.map (·.respelled translation)) ∧
      ReportsAlike toggling (toggling.map (·.respelled translation)) := by
  have hrespelled : List.Forall₂ Respelled toggling (toggling.map (·.respelled translation)) :=
    forall₂_respelled (by decide) toggling
  have hdo : ∀ x ∈ toggling, x.category = .doWord → x.text = "do" := by decide +kernel
  have hdo' : ∀ y ∈ toggling.map (·.respelled translation), y.category = .doWord → y.text = "do" := by
    intro y hy hc
    obtain ⟨x, hx, rfl⟩ := List.mem_map.mp hy
    have hnone : translation x.category = none := congrArg translation hc
    rw [Lexeme.respelled, hnone]
    exact hdo x hx hc
  exact ⟨hrespelled, (reportsAlike_iff hrespelled).mpr ⟨not_missesDo hdo, not_missesDo hdo'⟩⟩

/-- Another word for `do`. -/
def misspelling : Category → Option String
  | .doWord => some "faire"
  | _ => none

/-- The word for `do` may not be respelled. -/
theorem not_reportsAlike_misspelled :
    List.Forall₂ Respelled toggling (toggling.map (·.respelled misspelling)) ∧
      ¬ ReportsAlike toggling (toggling.map (·.respelled misspelling)) := by
  refine ⟨forall₂_respelled (by decide) toggling, fun halike => ?_⟩
  have hloop : breach? toggling = none := by decide +kernel
  have hmisspelled : breach? (toggling.map (·.respelled misspelling)) = some ⟨.awaitedWord "do", 7⟩ := by decide +kernel
  have hbreach := halike.breach
  rw [hloop, hmisspelled] at hbreach
  cases hbreach

end MiniPascal
