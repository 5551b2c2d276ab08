import MiniPascal.Dictionary.Builtin
import MiniPascal.Proofs.Descent.Statements

/-!
# The recursive descent and the analysis

The recursive descent is never at fault, and its report is that of the analysis.

- `leads_header`, `leads_body`, `leads_ending`: the sections of a program.
- `operator_of_deep`: an operator under too many bodies and branches halts at once.
- `report_eq_analyze`, `lt_of_statement`, `report_agrees`: the two reports, and the progress of statements.
-/

namespace MiniPascal.Descent

variable {program : List Lexeme} {answer : Option Halt × ScopeTable} {rest : List Goal} {p q : Spot} {context : Context}
  {frames : Nat}

/-! ## Comments behind operators -/

/-- What follows the question whether a comment is closed behind the cursor. -/
theorem leads_closedBehind {closed? : Option Nat} {next : Option Nat → Rule Unit} {R : Unit → Spot → Prop}
    (hclosed : closedAt program p.cursor = closed?) (h : Leads program answer (next closed?) p R) :
    Leads program answer (closedBehind >>= next) p R := by
  subst hclosed
  exact h

/-- Behind an operator the rule halts at the loose end of a comment, as the analysis does. -/
theorem leads_absorbCommentBehind (h : Settled program answer (.moreOperators :: rest) p) :
    Leads program answer absorbCommentBehind p fun _ q => q = p ∧ looseBehind program q.cursor = none := by
  obtain ⟨cursor, scope⟩ := p
  cases cursor with
  | zero => exact leads_closedBehind rfl (.pure ⟨rfl, rfl⟩)
  | succ behind =>
    by_cases hclosed : program[behind]?.any (·.is .comment closingMark) = true
    case neg =>
      refine leads_closedBehind (if_neg hclosed) (.pure ⟨rfl, ?_⟩)
      rw [looseBehind, if_neg hclosed]
    case pos =>
      refine leads_closedBehind (if_pos hclosed) ?_
      refine .bind_apply (slice_apply (Nat.zero_le _) (Nat.le_of_succ_le h.inRange)) ?_
      rw [List.drop_zero]
      split
      · rename_i hopened
        refine .pure ⟨rfl, ?_⟩
        rw [looseBehind, if_pos hclosed, if_pos hopened]
      · rename_i hopened
        have hloose : looseBehind program (behind + 1) = some behind := by
          rw [looseBehind, if_pos hclosed, if_neg hopened]
        refine h.refuse rfl ?_
        simp [place, hloose]

/-! ## Sections -/

theorem leads_header (h : Settled program answer [.programWord] p) :
    Leads program answer header p fun _ q =>
      Settled program answer [.variableLists, .beginWord] q ∧ q.scope.inCompound = false := by
  have hword := leads_keyword h rfl (by decide) (fun _ _ => rfl) (h.proper.openOutermost .program)
  refine hword.bind fun _ q _ ⟨hq, hat⟩ => ?_
  subst hq
  refine .bind_done (openBlock_apply .program h.proper.sound.size_pos) (Nat.le_refl _) ?_
  refine (leads_skipComments hat rfl).mono fun _ q _ hq => ⟨hq.1, ?_⟩
  rw [hq.2]
  exact (h.proper.shows.openOutermost .program).inCompound

theorem leads_headerVariables (h : Settled program answer [.variableLists, .beginWord] p)
    (hout : p.scope.inCompound = false) :
    Leads program answer variableLists p fun _ q =>
      Settled program answer [.beginWord] q ∧ q.scope.inCompound = false := by
  refine (leads_variableLists rfl (fun q hq _ hc => ?_) h).mono fun _ q _ ⟨⟨hq, hshape⟩, hvar⟩ => ⟨hq.pass rfl ?_, ?_⟩
  · exact hq.take rfl [.typeName, .variableLists] (by simp [hc]) hq.proper
  · simp [hvar]
  · rw [h.proper.shows.inCompound] at hout
    rw [hq.proper.shows.inCompound, inCompound_congr hshape, hout]

/-- The goals behind an operator of the program, where no compound block is open and no comment has a loose end. -/
structure Behind (program : List Lexeme) (answer : Option Halt × ScopeTable) (rest : List Goal) (q : Spot) : Prop
    extends Settled program answer (.moreOperators :: rest) q where
  outside : q.scope.inCompound = false
  tight : looseBehind program q.cursor = none

theorem leads_outermost (hframes : maxNesting + 2 ≤ frames)
    (h : At program answer (.operator .outermost :: .moreOperators :: rest) p) (hout : p.scope.inCompound = false) :
    Leads program answer (outermost frames) p fun _ q => Behind program answer rest q := by
  have hroom : Alike p.scope (.room 0 :: .operator .outermost :: .moreOperators :: rest)
      (.operator .outermost :: .moreOperators :: rest) :=
    alike_room (h.proper.hasRoom_of_not_inCompound hout (Nat.zero_le _)) rfl
  have hdepth : maxNesting + 1 < Context.outermost.depth + frames :=
    Nat.lt_of_lt_of_le hframes (Nat.le_add_left _ _)
  refine (leads_operator hdepth (by omega) (h.alike hroom.symm)).bind fun _ q _ hq => ?_
  refine (leads_absorbCommentBehind hq.1).mono fun _ r _ ⟨hr, htight⟩ => ?_
  rw [hr] at htight ⊢
  exact ⟨hq.1, hq.2 rfl, htight⟩

theorem leads_body (hframes : maxNesting + 2 ≤ frames) (h : Settled program answer [.beginWord] p)
    (hout : p.scope.inCompound = false) :
    Leads program answer (body frames) p fun _ q => Settled program answer [.endWord] q := by
  refine (leads_skipComments h.toAt rfl).bind fun _ q _ hq => ?_
  obtain ⟨hq, hscope⟩ := hq
  rw [← hscope] at hout
  have hword := leads_keyword hq rfl (by decide) (fun _ _ => rfl) (hq.proper.openInner .body hout)
  refine hword.bind fun _ r _ hr => ?_
  obtain ⟨rfl, hat⟩ := hr
  refine .bind_done (openInner_apply .body hq.proper.sound) (Nat.le_refl _) ?_
  refine (leads_outermost hframes hat (hq.proper.shows.openInner _).inCompound).bind fun _ r _ hr => ?_
  have hgoal {s : Spot} (hs : Behind program answer [.endWord] s) :
      Goal.moreOperators.onLexeme s.scope (place program s) (lexemeAt program s.cursor) =
        if (lexemeAt program s.cursor).category = .semicolon then .take s.scope [.operator .outermost, .moreOperators]
        else .pass := by
    simp [hs.tight]
  refine (leads_chain (I := Behind program answer [.endWord]) (by decide) (fun s hs hin => ?_) (fun s hs => hs.inRange)
    hr).mono fun _ s _ hs => hs.1.pass rfl ?_
  · obtain ⟨hlt, hat⟩ := hs.take rfl _ ((hgoal hs).trans (if_pos (by simpa using hin))) hs.proper
    exact ⟨hlt, leads_outermost hframes hat hs.outside⟩
  · exact (hgoal hs.1).trans (if_neg (by simpa using hs.2))

theorem leads_ending (h : Settled program answer [.endWord] p) :
    Leads program answer ending p fun _ q => answer = (none, q.scope) := by
  refine (leads_skipComments h.toAt rfl).bind fun _ q _ ⟨hq, _⟩ => ?_
  refine (leads_keyword hq rfl (by decide) (fun _ _ => rfl) hq.proper.closeBlock).bind fun _ r _ ⟨hr, hat⟩ => ?_
  subst hr
  refine .bind_done (closeBlock_apply hq.proper.sound) (Nat.le_refl _) ?_
  refine (leads_skipComments hat rfl).bind fun _ r _ ⟨hr, _⟩ => leads_atEnd ?_
  cases hx : program[r.cursor]? with
  | none =>
    rw [decide_eq_true (List.getElem?_eq_none_iff.mp hx)]
    refine .pure ?_
    rw [← hr.answers, answerAt_end hx]
    rfl
  | some x =>
    rw [decide_eq_false (Nat.not_le_of_lt (List.getElem?_eq_some_iff.mp hx).1)]
    refine leads_fail ?_
    rw [← hr.answers, answerAt_word hx (hr.word hx)]
    rfl

theorem leads_program (hframes : maxNesting + 2 ≤ frames) (h : At program answer [.programWord] p) :
    Leads program answer (Descent.program frames) p fun _ q => answer = (none, q.scope) := by
  refine (leads_skipComments h rfl).bind fun _ q _ ⟨hq, _⟩ => ?_
  refine (leads_header hq).bind fun _ r _ ⟨hr, hout⟩ => ?_
  refine (leads_headerVariables hr hout).bind fun _ s _ ⟨hs, hout⟩ => ?_
  exact (leads_body hframes hs hout).bind fun _ u _ hu => leads_ending hu

/-! ## Operators too deep -/

/-- An operator under too many bodies and branches halts before it reads anything. -/
theorem operator_of_deep (hdepth : maxNesting < context.depth) (h : p.scope.Sound) :
    operator (frames + 1) context program p = .halt ⟨.nestingTooDeep, p.cursor⟩ p.scope := by
  have hfull : ¬context.depth + p.scope.openCompounds ≤ maxNesting := by omega
  have hstatement : statement (operator frames) context program p = .halt ⟨.nestingTooDeep, p.cursor⟩ p.scope := by
    simp [statement, compoundDepth_apply h, hfull]
  have hprogress : progress (statement (operator frames) context) program p =
      .halt ⟨.nestingTooDeep, p.cursor⟩ p.scope := by
    simp [progress, hstatement]
  simp [operator, hprogress]

/-! ## The two reports -/

/-- With a frame for each body or branch that there can be, and two more, the descent is never at fault. -/
theorem report_eq_analyze (hframes : maxNesting + 2 ≤ frames) (program : List Lexeme) :
    report frames program = .ok (analyze program) := by
  have hat : At program (State.initial.run program) [.programWord] ⟨0, .empty⟩ :=
    ⟨Nat.zero_le _, Proper.empty, rfl⟩
  have hleads := leads_program hframes hat
  unfold Leads at hleads
  rw [report, analyze]
  cases hrun : Descent.program frames program ⟨0, .empty⟩ with
  | fault fault =>
    rw [hrun] at hleads
    exact hleads.elim
  | halt halt scope =>
    rw [hrun] at hleads
    dsimp only at hleads
    rw [hleads]
    rfl
  | done value p =>
    rw [hrun] at hleads
    rw [hleads.2]
    rfl

/-- A statement that is read moves the cursor, wherever it begins. -/
theorem lt_of_statement (hframes : maxNesting < context.depth + frames) (hrange : p.cursor ≤ program.length)
    (hproper : Proper p.scope) (h : statement (operator frames) context program p = .done true q) :
    p.cursor < q.cursor ∧ q.cursor ≤ program.length := by
  -- any goals give some answer at the spot, those of an operator among them
  have hat : At program (answerAt program [.room context.depth, .operator context] p)
      [.room context.depth, .operator context] p := ⟨hrange, hproper, rfl⟩
  have hnested (hdepth : context.depth ≤ maxNesting) :
      Operates program (answerAt program [.room context.depth, .operator context] p) (operator frames)
        (context.depth + 1) := operates_operator (by omega) (by omega)
  have hleads := leads_statement hnested hat
  unfold Leads at hleads
  rw [h] at hleads
  exact ⟨hleads.2.1, hleads.2.2.inRange⟩

/-- The recursive descent reports what the analysis reports and is never at fault: no loop goes round too often, the
cursor neither moves back nor leaves the program, each statement that is read moves it, all parts of the program and
all blocks that are asked for exist, and no more operators are begun and not ended than there can be bodies and
branches, and two more. A statement that is read moves the cursor wherever it begins, and an operator under more bodies
and branches halts at once. -/
theorem report_agrees (program : List Lexeme) :
    report (maxNesting + 2) program = .ok (analyze program) ∧
    (∀ (frames : Nat) (context : Context) (p q : Spot), maxNesting < context.depth + frames →
      p.cursor ≤ program.length → Proper p.scope →
      statement (operator frames) context program p = .done true q →
        p.cursor < q.cursor ∧ q.cursor ≤ program.length) ∧
    ∀ (frames : Nat) (context : Context) (p : Spot), maxNesting < context.depth → p.scope.Sound →
      operator (frames + 1) context program p = .halt ⟨.nestingTooDeep, p.cursor⟩ p.scope :=
  ⟨report_eq_analyze (Nat.le_refl _) program, fun _ _ _ _ => lt_of_statement, fun _ _ _ => operator_of_deep⟩

/-- A program with a loop in a block. -/
def looping : List Lexeme :=
  tokenize .builtin "program var bool b begin [ while b do b := b ] end"

/-- The blocks around the loop. -/
def loopingScope : ScopeTable :=
  ((ScopeTable.empty.openBlock .program ScopeTable.global).openInner .body).openInner (.compound 0)

/-- The block is closed behind the loop, and would be too deep inside so many branches. -/
theorem report_agrees_looping :
    report (maxNesting + 2) looping = .ok (analyze looping) ∧
    ((maxNesting < (⟨false, 0⟩ : Context).depth + 49 ∧ 12 ≤ looping.length ∧ Proper loopingScope ∧
        statement (operator 49) ⟨false, 0⟩ looping ⟨12, loopingScope⟩ = .done true ⟨13, loopingScope.closeBlock⟩) ∧
      12 < 13 ∧ 13 ≤ looping.length) ∧
    (maxNesting < (⟨true, 49⟩ : Context).depth ∧ loopingScope.Sound) ∧
      operator 1 ⟨true, 49⟩ looping ⟨12, loopingScope⟩ = .halt ⟨.nestingTooDeep, 12⟩ loopingScope := by
  obtain ⟨hreport, hstatement, hoperator⟩ := report_agrees looping
  have hproper : Proper loopingScope :=
    ((Proper.empty.openOutermost .program).openInner .body (by decide)).openCompound 0
  have hruns : 12 ≤ looping.length ∧ statement (operator 49) ⟨false, 0⟩ looping ⟨12, loopingScope⟩ =
      .done true ⟨13, loopingScope.closeBlock⟩ := by decide +kernel
  refine ⟨hreport, ⟨⟨by decide, hruns.1, hproper, hruns.2⟩, ?_⟩, ⟨by decide, hproper.sound⟩, ?_⟩
  · exact hstatement 49 ⟨false, 0⟩ ⟨12, loopingScope⟩ ⟨13, loopingScope.closeBlock⟩ (by decide) hruns.1 hproper hruns.2
  · exact hoperator 0 ⟨true, 49⟩ ⟨12, loopingScope⟩ (by decide) hproper.sound

end MiniPascal.Descent
