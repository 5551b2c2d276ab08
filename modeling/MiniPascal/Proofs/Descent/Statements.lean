import MiniPascal.Proofs.Analysis.Takes
import MiniPascal.Proofs.Descent.Parts

/-!
# Statements and operators

A statement starts where there may be no room for it and comments may come (`.room` above `.operator`). If there was
one, the cursor has moved, and either the operator goes on with the next statement or the goals below are next
(`Resumes`).

- `leads_whileLoop`, `leads_forLoop`, `leads_reading`, `leads_writing`, `leads_conditional`: the kinds of statements,
  with a rule for the operators inside them (`Operates`).
- `leads_openCompound`, `leads_closeCompound`, `leads_named`, `leads_conditionalWord`: what a first word brings about.
- `leads_statementFrom`, `leads_statement`: a statement.
- `leads_operator`: an operator. Statements under too many bodies and branches are refused before an operator inside
  them is begun, so a frame for each body or branch that there can be, and two more, are enough.
-/

namespace MiniPascal.Descent

variable {program : List Lexeme} {answer : Option Halt × ScopeTable} {stack below rest new : List Goal} {g : Goal}
  {p q r : Spot} {x : Lexeme} {context : Context} {nested : Context → Rule Unit} {depth : Nat}

/-! ## Stacks with room -/

/-- Before a word an operator asks for room itself. -/
theorem Settled.withRoom (h : Settled program answer (.operator context :: below) p) :
    Settled program answer (.room context.depth :: .operator context :: below) p := by
  refine h.alike (fun x _ => ?_) fun _ => ?_
  · cases hroom : p.scope.hasRoom context.depth <;> simp [beginStatement, hroom]
  · cases hroom : p.scope.hasRoom context.depth <;> simp [Goal.onEnd, endStatement, hroom]

/-- Where there is room it need not be asked for. -/
theorem alike_room (hroom : p.scope.hasRoom depth = true) (hfree : noRoom stack) :
    Alike p.scope (.room depth :: stack) stack where
  full := by
    have hnext : (stateAt [] stack ⟨0, p.scope⟩).isFull = false := isFull_of_noRoom hfree
    exact (show (!p.scope.hasRoom depth) = false by rw [hroom]; rfl).trans hnext.symm
  offers here x := by simp [hroom]
  complaints here := by simp [Goal.onEnd, hroom]

/-- Room may be asked for above stacks that are alike. -/
theorem Alike.room {t : ScopeTable} {stack' : List Goal} (h : Alike t stack stack') :
    Alike t (.room depth :: stack) (.room depth :: stack') where
  full := rfl
  offers here x := by cases hroom : t.hasRoom depth <;> simp [hroom, h.offers]
  complaints here := by rw [complaint_cons, complaint_cons, h.complaints]

/-- In a compound block more statements are awaited as an operator is. -/
theorem alike_operator {t : ScopeTable} (hin : t.inCompound = true) :
    Alike t (.moreStatements context :: below) (.operator context :: below) where
  full := rfl
  offers here x := by simp [hin]
  complaints here := by simp [Goal.onEnd, hin]

/-- Where an operator goes on: with the next statement in a compound block, with the goals below outside. -/
def Resumes (program : List Lexeme) (answer : Option Halt × ScopeTable) (context : Context) (below : List Goal)
    (q : Spot) : Prop :=
  if q.scope.inCompound then At program answer (.room context.depth :: .operator context :: below) q
  else Settled program answer below q

namespace Resumes

/-- Either way the answer is given there. -/
theorem exists_at (h : Resumes program answer context below q) : ∃ stack, At program answer stack q := by
  unfold Resumes at h
  split at h
  · exact ⟨_, h⟩
  · exact ⟨_, h.toAt⟩

theorem inRange (h : Resumes program answer context below q) : q.cursor ≤ program.length :=
  h.exists_at.choose_spec.inRange

theorem proper (h : Resumes program answer context below q) : Proper q.scope :=
  h.exists_at.choose_spec.proper

end Resumes

theorem resumes_of_settled (h : Settled program answer (.moreStatements context :: below) q) :
    Resumes program answer context below q := by
  unfold Resumes
  split
  · rename_i hin
    exact (h.of_alike (alike_operator hin)).withRoom.toAt
  · rename_i hout
    exact h.alike (fun x _ => by simp [hout]) fun _ => by simp [Goal.onEnd, hout]

/-! ## Kinds of statements -/

/-- A rule reads the operators under so many bodies and branches. -/
def Operates (program : List Lexeme) (answer : Option Halt × ScopeTable) (nested : Context → Rule Unit) (depth : Nat) :
    Prop :=
  ∀ (context : Context) (p : Spot) (below : List Goal), context.depth = depth →
    At program answer (.room depth :: .operator context :: below) p →
      Leads program answer (nested context) p fun _ q => Settled program answer below q

/-- Parts of one kind with commas between them, up to the parenthesis behind the last one. -/
theorem leads_enclosed {part : Rule Unit} (hg : ordinary g) (hgoal : ∀ (t : ScopeTable) (here : Place) (x : Lexeme),
      g.onLexeme t here x = if x.category ∈ [.comma] then .take t (new ++ [g]) else .pass)
    (hnew : ∀ stack, noRoom (new ++ g :: stack))
    (hpart : ∀ q, Settled program answer (new ++ g :: .word .parenthesis ")" :: rest) q →
      Leads program answer part q fun _ r => Past program answer (g :: .word .parenthesis ")" :: rest) q r)
    (h : Settled program answer (new ++ g :: .word .parenthesis ")" :: rest) p) (hfree : noRoom rest) :
    Leads program answer (do part; chain [.comma] (do skipComments; part); expect .parenthesis ")") p fun _ q =>
      Settled program answer rest q := by
  refine (hpart p h).bind fun _ q _ hq => ?_
  refine (leads_more (by decide) hg hgoal (hnew _) hpart hq).bind fun _ r _ hr => ?_
  exact (leads_expect (by decide) hr.toAt hfree).mono fun _ _ _ hs => hs.toSettled

section Kinds

variable (hlt : p.cursor < program.length)
include hlt

theorem leads_reading (h : At program answer (readGoals ++ rest) ⟨p.cursor + 1, p.scope⟩) (hfree : noRoom rest) :
    Leads program answer reading p fun _ q => p.cursor < q.cursor ∧ Settled program answer rest q := by
  have hgoal (t : ScopeTable) (here : Place) (x : Lexeme) : Goal.moreReadTargets.onLexeme t here x =
      if x.category ∈ [.comma] then .take t ([.readTarget] ++ [.moreReadTargets]) else .pass := by
    simp
  refine leads_bump hlt ?_
  refine (leads_expect (by decide) h rfl).bind fun _ q _ hq => ?_
  exact leads_enclosed rfl hgoal (fun _ => rfl) (fun r hr => leads_readTarget hr rfl) hq.toSettled hfree

theorem leads_writing (h : At program answer (writeGoals ++ rest) ⟨p.cursor + 1, p.scope⟩) (hfree : noRoom rest) :
    Leads program answer writing p fun _ q => p.cursor < q.cursor ∧ Settled program answer rest q := by
  have hgoal (t : ScopeTable) (here : Place) (x : Lexeme) : Goal.moreWritten.onLexeme t here x =
      if x.category ∈ [.comma] then .take t (MiniPascal.comparison ++ [.moreWritten]) else .pass := by
    simp
  refine leads_bump hlt ?_
  refine (leads_expect (by decide) h rfl).bind fun _ q _ hq => ?_
  exact leads_enclosed rfl hgoal (fun _ => rfl) (fun r hr => leads_comparison hr.toAt) hq.toSettled hfree

variable (hnested : Operates program answer nested (context.depth + 1))
include hnested

theorem leads_whileLoop (h : At program answer (whileGoals context ++ rest) ⟨p.cursor + 1, p.scope⟩) :
    Leads program answer (whileLoop nested context) p fun _ q =>
      p.cursor < q.cursor ∧ Settled program answer rest q := by
  refine leads_bump hlt ?_
  refine (leads_comparison h).bind fun _ q _ hq => ?_
  refine (leads_expect (by decide) hq.toAt rfl).bind fun _ r _ hr => ?_
  exact hnested context.inner r rest rfl hr.toSettled.withRoom.toAt

theorem leads_forLoop (h : At program answer (forGoals context ++ rest) ⟨p.cursor + 1, p.scope⟩) :
    Leads program answer (forLoop nested context) p fun _ q =>
      p.cursor < q.cursor ∧ Settled program answer rest q := by
  refine (leads_advanceTo hlt h rfl).bind fun _ q _ hq => ?_
  refine (leads_assignment hq.toSettled).bind fun _ r _ hr => ?_
  refine (leads_expect (by decide) hr.toAt rfl).bind fun _ s _ hs => ?_
  refine (leads_comparison hs.toAt).bind fun _ u _ hu => ?_
  refine (leads_expect (by decide) hu.toAt rfl).bind fun _ v _ hv => ?_
  refine (hnested context.inner v rest rfl hv.toSettled.withRoom.toAt).mono fun _ w hle hw => ⟨?_, hw⟩
  have := (hq.trans (hr.trans (hs.trans (hu.trans hv)))).moved
  omega

theorem leads_conditional (h : At program answer (ifGoals context ++ rest) ⟨p.cursor + 1, p.scope⟩) :
    Leads program answer (conditional nested context) p fun _ q =>
      p.cursor < q.cursor ∧ Settled program answer rest q := by
  refine leads_bump hlt ?_
  refine (leads_comparison h).bind fun _ q _ hq => ?_
  refine (leads_expect (by decide) hq.toAt rfl).bind fun _ r _ hr => ?_
  refine (hnested context.branch r _ rfl hr.toSettled.withRoom.toAt).bind fun _ s _ hs => ?_
  refine (leads_skipComments hs.toAt rfl).bind fun _ u _ ⟨hu, _⟩ => leads_peek ?_
  cases helse : (lexemeAt program u.cursor).is .conditional "else" with
  | false =>
    refine .pure (hu.pass rfl ?_)
    simp [helse]
  | true =>
    obtain ⟨hlt, hat⟩ := hu.take rfl [.room context.inner.depth, .operator context.inner] (by
      simp [helse]) hu.proper
    exact (leads_bump hlt (hnested context.inner _ rest rfl hat)).mono fun _ _ _ hv => hv.2

end Kinds

/-! ## Statements -/

/-- What a statement brings about: the cursor has moved and the operator may go on, or there was none. -/
def Stated (program : List Lexeme) (answer : Option Halt × ScopeTable) (context : Context) (below : List Goal)
    (p : Spot) (reads : Bool) (q : Spot) : Prop :=
  if reads then p.cursor < q.cursor ∧ Resumes program answer context below q
  else Settled program answer below q ∧ (context.inBranch = false → q.scope.inCompound = false)

theorem Stated.of_le {reads : Bool} (h : Stated program answer context below q reads r) (hle : p.cursor ≤ q.cursor) :
    Stated program answer context below p reads r := by
  cases reads with
  | false => exact h
  | true => exact ⟨Nat.lt_of_le_of_lt hle h.1, h.2⟩

theorem stated_of_resumes {rule : Rule Bool}
    (h : Leads program answer rule p fun reads q =>
      p.cursor < q.cursor ∧ reads = true ∧ Resumes program answer context below q) :
    Leads program answer rule p (Stated program answer context below p) :=
  h.mono fun _ _ _ hq => by
    rw [Stated, if_pos hq.2.1]
    exact ⟨hq.1, hq.2.2⟩

/-- A statement that is read up to the further statements of its operator. -/
theorem stated_of_leads {rule : Rule Unit}
    (h : Leads program answer rule p fun _ q =>
      p.cursor < q.cursor ∧ Settled program answer (.moreStatements context :: below) q) :
    Leads program answer (rule >>= fun _ => pure true) p (Stated program answer context below p) :=
  stated_of_resumes (h.bind fun _ _ _ hq => .pure ⟨hq.1, rfl, resumes_of_settled hq.2⟩)

/-- Behind its first word the goals of a statement are next, above the further statements of its operator. -/
theorem Settled.begins (goals : List Goal) (h : Settled program answer (.operator context :: below) p)
    (hroom : p.scope.hasRoom context.depth = true) (hx : program[p.cursor]? = some x)
    (hb : Begins p.scope x context p.scope (goals ++ [.moreStatements context])) :
    At program answer (goals ++ .moreStatements context :: below) ⟨p.cursor + 1, p.scope⟩ := by
  obtain ⟨_, hat⟩ := h.takeWord _ hx (take_of_begins hroom hb) h.proper
  rwa [List.append_assoc] at hat

section Room

variable (h : Settled program answer (.operator context :: below) p) (hroom : p.scope.hasRoom context.depth = true)
include h hroom

/-- Where a block or the input ends there is no statement, and in a compound block this is a breach. -/
theorem leads_noStatement (hend : ∀ x, program[p.cursor]? = some x → x.category = .endWord) :
    Leads program answer noStatement p (Stated program answer context below p) := by
  have hoffer {x : Lexeme} (hx : program[p.cursor]? = some x) :
      (Goal.operator context).onLexeme p.scope (place program p) x =
        if p.scope.inCompound then (place program p).refuse (.awaitedName "]") else .pass := by
    simp [beginStatement, hroom, hend x hx]
  have hcomplaint : (Goal.operator context).onEnd p.scope (place program p) =
      if p.scope.inCompound then some ((place program p).halt (.awaitedName "]")) else none := by
    simp [Goal.onEnd, endStatement, hroom]
  refine .bind_apply (inCompound_apply h.proper.sound) (leads_demand (fun hin => ?_) fun hout => ?_)
  · rw [Bool.not_eq_false'] at hin
    rw [hin] at hcomplaint
    cases hx : program[p.cursor]? with
    | some x => exact h.refuseWord hx ((hoffer hx).trans (if_pos hin))
    | none =>
      rw [← h.answers, answerAt_end hx, complaint_cons, hcomplaint]
      rfl
  · rw [Bool.not_eq_true'] at hout
    rw [hout] at hcomplaint
    refine .pure ⟨h.alike (fun x hx => ?_) fun _ => ?_, fun _ => hout⟩
    · rw [offer, hoffer hx, hout]
      rfl
    · rw [complaint_cons, hcomplaint]
      rfl

variable (hx : program[p.cursor]? = some x)
include hx

/-- A compound block is opened, and its first statement is next. -/
theorem leads_openCompound (hc : x.category = .compoundOpen) :
    Leads program answer (statementFrom nested context x) p (Stated program answer context below p) := by
  obtain ⟨hlt, hat⟩ := h.takeWord _ hx (take_of_begins hroom (.opening hc)) (h.proper.openCompound 0)
  have hin : (p.scope.openInner (.compound 0)).inCompound = true := (h.proper.shows.openInner _).inCompound
  rw [statementFrom, hc]
  refine stated_of_resumes (leads_bump hlt ?_)
  refine .bind_done (openInner_apply _ h.proper.sound) (Nat.le_refl _) (.pure ⟨rfl, ?_⟩)
  rw [Resumes, if_pos hin]
  exact hat.alike (alike_operator hin).room

/-- A compound block is closed where one is open. -/
theorem leads_closeCompound (hc : x.category = .compoundClose) :
    Leads program answer (statementFrom nested context x) p (Stated program answer context below p) := by
  rw [statementFrom, hc]
  refine .bind_apply (inCompound_apply h.proper.sound) (leads_demand (fun hout => ?_) fun hin => ?_)
  · refine h.refuseWord hx ?_
    simp [beginStatement, hroom, hc, hout]
  · obtain ⟨hlt, hat⟩ := h.takeWord _ hx (take_of_begins hroom (.closing hc hin)) h.proper.closeBlock
    refine stated_of_resumes (leads_bump hlt ?_)
    refine .bind_done (closeBlock_apply h.proper.sound) (Nat.le_refl _) ?_
    exact (leads_skipComments hat rfl).bind fun _ q _ hq => .pure ⟨rfl, resumes_of_settled hq.1⟩

/-- An operator treats a name as the target of an assignment does. -/
theorem leads_named (hc : x.category = .unclassified) :
    Leads program answer (statementFrom nested context x) p (Stated program answer context below p) := by
  have htarget : Settled program answer (.target :: .moreStatements context :: below) p := by
    refine h.alike (fun y hy => ?_) fun hend => ?_
    · obtain rfl := Option.some.inj (hx.symm.trans hy)
      cases hassign : assignTo p.scope (place program p) x <;> simp [beginStatement, hroom, hc, hassign]
    · rw [hx] at hend
      cases hend
  rw [statementFrom, hc]
  exact stated_of_leads ((leads_assignment htarget).mono fun _ q _ hq => ⟨hq.moved, hq.toSettled⟩)

variable (hnested : Operates program answer nested (context.depth + 1))
include hnested

/-- A conditional is read; in a branch the word before an alternative ends the operator, and nothing is read. -/
theorem leads_conditionalWord (hc : x.category = .conditional) :
    Leads program answer (statementFrom nested context x) p (Stated program answer context below p) := by
  have hlt := (List.getElem?_eq_some_iff.mp hx).1
  rw [statementFrom, hc]
  dsimp only
  split
  · rename_i htext
    exact stated_of_leads (leads_conditional hlt hnested (h.begins _ hroom hx (.conditional hc htext)))
  · rename_i hif
    split
    · rename_i helse
      rw [Bool.and_eq_true, decide_eq_true_eq] at helse
      refine .pure ⟨h.alike (fun y hy => ?_) fun hend => ?_, fun hb => ?_⟩
      · obtain rfl := Option.some.inj (hx.symm.trans hy)
        simp [beginStatement, hroom, hc, helse]
      · rw [hx] at hend
        cases hend
      · rw [helse.1] at hb
        cases hb
    · rename_i helse
      refine leads_fail (h.refuseWord hx ?_)
      simp [beginStatement, hroom, hc, hif, helse]

theorem leads_statementFrom (hvar : x.category ≠ .varWord) :
    Leads program answer (statementFrom nested context x) p (Stated program answer context below p) := by
  have hlt := (List.getElem?_eq_some_iff.mp hx).1
  cases hc : x.category with
  | comment => exact absurd hc (h.word hx)
  | varWord => exact absurd hc hvar
  | compoundOpen => exact leads_openCompound h hroom hx hc
  | compoundClose => exact leads_closeCompound h hroom hx hc
  | unclassified => exact leads_named h hroom hx hc
  | conditional => exact leads_conditionalWord h hroom hx hnested hc
  | endWord =>
    rw [statementFrom, hc]
    refine leads_noStatement h hroom fun y hy => ?_
    obtain rfl := Option.some.inj (hx.symm.trans hy)
    exact hc
  | whileWord =>
    rw [statementFrom, hc]
    exact stated_of_leads (leads_whileLoop hlt hnested (h.begins _ hroom hx (.whileDo hc)))
  | cycle =>
    rw [statementFrom, hc]
    refine leads_demand (fun htext => ?_) fun htext => ?_
    · refine h.refuseWord hx ?_
      simp [beginStatement, hroom, hc, of_decide_eq_false htext]
    · exact stated_of_leads (leads_forLoop hlt hnested (h.begins _ hroom hx (.forDo hc (of_decide_eq_true htext))))
  | readWord =>
    rw [statementFrom, hc]
    exact stated_of_leads (leads_reading hlt (h.begins _ hroom hx (.read hc)) rfl)
  | writeWord =>
    rw [statementFrom, hc]
    exact stated_of_leads (leads_writing hlt (h.begins _ hroom hx (.write hc)) rfl)
  | _ =>
    rw [statementFrom, hc]
    refine leads_fail (h.refuseWord hx ?_)
    simp [beginStatement, hroom, hc]

end Room

/-- Variables may be declared before a statement; there is room for it behind them as before. -/
theorem leads_declarations (h : Settled program answer (.operator context :: below) p)
    (hroom : p.scope.hasRoom context.depth = true) :
    Leads program answer variableLists p fun _ q => Settled program answer (.operator context :: below) q ∧
      q.scope.hasRoom context.depth = true ∧ (lexemeAt program q.cursor).category ≠ .varWord := by
  have hstays {q : Spot} (hq : Settled program answer (.operator context :: below) q)
      (hshape : shape q.scope.frames = shape p.scope.frames) : q.scope.hasRoom context.depth = true :=
    (hasRoom_congr h.proper hq.proper hshape _).trans hroom
  refine (leads_variableLists rfl (fun q hq hshape hc => ?_) h).mono fun _ q _ ⟨⟨hq, hshape⟩, hvar⟩ =>
    ⟨hq, hstays hq hshape, hvar⟩
  cases hx : program[q.cursor]? with
  | none =>
    rw [(lexemeAt_of_none hx).1] at hc
    cases hc
  | some x =>
    rw [lexemeAt_of_getElem? hx] at hc
    exact hq.takeWord [.typeName, .operator context] hx (take_of_begins (hstays hq hshape) (.var hc)) hq.proper

theorem leads_statement (hnested : context.depth ≤ maxNesting → Operates program answer nested (context.depth + 1))
    (h : At program answer (.room context.depth :: .operator context :: below) p) :
    Leads program answer (statement nested context) p (Stated program answer context below p) := by
  refine .bind_apply (compoundDepth_apply h.proper.sound) ?_
  refine leads_demand (fun hfull => h.full ?_) fun hroom => ?_
  · exact (show (!p.scope.hasRoom context.depth) = true by rw [ScopeTable.hasRoom, hfull]; rfl)
  have hdepth : context.depth ≤ maxNesting := Nat.le_of_add_right_le (of_decide_eq_true hroom)
  refine (leads_skipComments (h.alike (alike_room hroom rfl)) rfl).bind fun _ q hpq hq => ?_
  obtain ⟨hq, hscope⟩ := hq
  refine (leads_declarations hq (hscope ▸ hroom)).bind fun _ r hqr hr => ?_
  obtain ⟨hr, hroom, hvar⟩ := hr
  refine Leads.mono (P := Stated program answer context below r) ?_ fun _ _ _ hs => hs.of_le (Nat.le_trans hpq hqr)
  refine leads_atEnd ?_
  cases hx : program[r.cursor]? with
  | none =>
    rw [decide_eq_true (List.getElem?_eq_none_iff.mp hx)]
    exact leads_noStatement hr hroom fun x hx' => by rw [hx] at hx'; cases hx'
  | some x =>
    rw [decide_eq_false (Nat.not_le_of_lt (List.getElem?_eq_some_iff.mp hx).1)]
    refine leads_peek ?_
    rw [lexemeAt_of_getElem? hx] at hvar ⊢
    exact leads_statementFrom hr hroom hx (hnested hdepth) hvar

/-! ## Operators -/

theorem leads_progress {rule : Rule Bool} (h : Leads program answer rule p (Stated program answer context below p)) :
    Leads program answer (progress rule) p (Stated program answer context below p) := by
  refine leads_cursor (h.bind fun reads q hle hq => leads_cursor ?_)
  cases reads with
  | false => exact .pure hq
  | true =>
    have hmoved : p.cursor < q.cursor := hq.1
    rw [decide_eq_false (Nat.not_le_of_lt hmoved)]
    exact .pure hq

/-- An operator that may go on does so until the goals below it are next. -/
theorem leads_moreStatements (hnested : context.depth ≤ maxNesting → Operates program answer nested (context.depth + 1))
    (h : Resumes program answer context below p) :
    Leads program answer
      (loop do if ← inCompound then progress (statement nested context) else return false) p fun _ q =>
        Settled program answer below q ∧ (context.inBranch = false → q.scope.inCompound = false) := by
  refine leads_loop (fun q hq => ?_) (fun q hq => hq.inRange) h
  refine .bind_apply (inCompound_apply hq.proper.sound) ?_
  unfold Resumes at hq
  cases hin : q.scope.inCompound with
  | true =>
    rw [hin, if_pos rfl] at hq
    exact leads_progress (leads_statement hnested hq)
  | false =>
    rw [hin] at hq
    exact .pure ⟨hq, fun _ => hin⟩

theorem leads_operator {frames : Nat} (hframes : maxNesting + 1 < context.depth + frames) (hsome : 0 < frames)
    (h : At program answer (.room context.depth :: .operator context :: below) p) :
    Leads program answer (operator frames context) p fun _ q =>
      Settled program answer below q ∧ (context.inBranch = false → q.scope.inCompound = false) := by
  induction frames generalizing context p below with
  | zero => exact absurd hsome (Nat.lt_irrefl _)
  | succ frames ih =>
    have hnested (hdepth : context.depth ≤ maxNesting) :
        Operates program answer (operator frames) (context.depth + 1) := by
      intro inner p below hinner h
      refine (ih (by omega) (by omega) (hinner ▸ h)).mono fun _ _ _ hq => hq.1
    refine (leads_progress (leads_statement hnested h)).bind fun reads q _ hq => ?_
    cases reads with
    | false => exact .pure hq
    | true => exact leads_moreStatements hnested hq.2

/-- An operator with enough frames reads the operators inside a statement. -/
theorem operates_operator {frames : Nat} (hframes : maxNesting + 1 < depth + frames) (hsome : 0 < frames) :
    Operates program answer (operator frames) depth := by
  rintro inner p below rfl h
  exact (leads_operator hframes hsome h).mono fun _ _ _ hq => hq.1

end MiniPascal.Descent
