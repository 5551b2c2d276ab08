import MiniPascal.Proofs.Analysis.Takes
import MiniPascal.Proofs.Grammar.Leads
import MiniPascal.Proofs.Grammar.Nesting

/-!
# Reading operators

The goals that operators leave on the stack only wait: for more statements of a block, or for an `else` (`Pending`).
Outside brackets they let everything but an `else` pass (`leads_pending`), and an `else` goes to the last conditional
that waits (`leads_else`). So the stack is known as far as it matters from the count of the analysis, and the words of
a well-scoped operator are read with the count that `Operator.tally?` tells, or are too deep where it tells none
(`comes_operator`).
-/

namespace MiniPascal

variable {base goals rest : List Goal} {t t' : ScopeTable} {frames frames' : List Frame} {w : Word}
  {ws ws' : List Word} {c c' : Tally} {depth : Nat}

/-! ## Waiting goals -/

/-- The place of an operator under a count. -/
def Tally.context (c : Tally) : Context := ⟨!c.waiting.isEmpty, c.depth⟩

/-- Goals above `base` that wait: for more statements at no more than the given depth, and for an `else` each of the
conditionals that wait. -/
inductive Pending (base : List Goal) : Nat → List Nat → List Goal → Prop
  | base {depth : Nat} : Pending base depth [] base
  | statements {depth : Nat} {waiting : List Nat} {goals : List Goal} {context : Context}
      (h : Pending base depth waiting goals) (hd : context.depth ≤ depth) (hb : context.inBranch = !waiting.isEmpty) :
      Pending base depth waiting (.moreStatements context :: goals)
  | conditional {depth d : Nat} {waiting : List Nat} {goals : List Goal} (h : Pending base d waiting goals)
      (hd : d < depth) : Pending base depth (d :: waiting) (.elseBranch ⟨!waiting.isEmpty, d⟩ :: goals)

theorem Pending.mono {d d' : Nat} {waiting : List Nat} (h : Pending base d waiting goals) (hd : d ≤ d') :
    Pending base d' waiting goals := by
  induction h generalizing d' with
  | base => exact .base
  | statements _ hc hb ih => exact .statements (ih hd) (by omega) hb
  | conditional h hlt _ => exact .conditional h (by omega)

/-- The goals behind an operator wait like those below. -/
theorem Pending.top (h : Pending base c.depth c.waiting goals) :
    Pending base c.depth c.waiting (.moreStatements c.context :: goals) :=
  .statements h (Nat.le_refl _) rfl

theorem Pending.body (h : Pending base c.depth c.waiting goals) :
    Pending base c.body.depth c.body.waiting (.moreStatements c.context :: goals) :=
  h.top.mono (Nat.le_succ _)

theorem Pending.branch (h : Pending base c.depth c.waiting goals) :
    Pending base c.branch.depth c.branch.waiting (.elseBranch c.context :: .moreStatements c.context :: goals) :=
  .conditional h.top (Nat.lt_succ_self _)

/-- Outside brackets everything but an `else` passes the goals that wait. -/
theorem leads_pending {waiting : List Nat} (hin : t.inCompound = false) (h : Pending base depth waiting goals)
    (hw : w.category ∉ [.comment, .conditional]) : Leads ⟨goals, t, w :: ws⟩ ⟨base, t, w :: ws⟩ := by
  simp only [List.mem_cons, List.not_mem_nil, or_false, not_or] at hw
  induction h with
  | base => exact Leads.refl _
  | statements _ _ _ ih => exact (leads_pass hw.1 fun n => by simp [hin]).trans ih
  | conditional _ _ ih =>
    refine (leads_pass hw.1 fun n => ?_).trans ih
    simp [hw.2]

/-- An `else` goes to the last conditional that waits. -/
theorem leads_else {d : Nat} {waiting : List Nat} (ht : t.Shows frames) (h : Pending base depth (d :: waiting) goals)
    (hroom : depth + compoundsIn frames ≤ maxNesting) :
    d < depth ∧ ∃ goals', Pending base d waiting goals' ∧
      Leads ⟨goals, t, elseWord :: ws⟩ ⟨.room (d + 1) :: .operator ⟨!waiting.isEmpty, d + 1⟩ :: goals', t, ws⟩ := by
  generalize hall : d :: waiting = all at h
  induction h with
  | base => cases hall
  | @statements depth all goals context h hd hb ih =>
    subst hall
    obtain ⟨hlt, goals', hp, hleads⟩ := ih hroom rfl
    refine ⟨hlt, goals', hp, (leads_pass (by simp) fun n => ?_).trans hleads⟩
    have hfits : t.hasRoom context.depth = true := (ht.hasRoom_iff _).mpr (by omega)
    rw [Goal.onLexeme, beginStatement, hfits, hb]
    simp
  | @conditional depth d' waiting' goals h hd _ =>
    obtain ⟨rfl, rfl⟩ := List.cons.inj hall
    exact ⟨hd, goals, h, leads_take [.room (d + 1), .operator ⟨!waiting.isEmpty, d + 1⟩] (by simp)
      fun n => rfl⟩

/-! ## The beginning of an operator -/

/-- What goes on with the part of a program before an operator. -/
def beforeOperator : List Category := inCondition ++ inList

/-- No operator begins with a word that goes on with what stands before it. -/
theorem ends_operator (o : Operator) : Ends beforeOperator (o.words ++ ws) := by
  cases o with
  | declaring l o => exact ends_cons (show Category.varWord ∉ beforeOperator by decide)
  | assign a => exact ends_cons (show Category.unclassified ∉ beforeOperator by decide)
  | read first more => exact ends_cons (show Category.readWord ∉ beforeOperator by decide)
  | write first more => exact ends_cons (show Category.writeWord ∉ beforeOperator by decide)
  | whileDo condition body => exact ends_cons (show Category.whileWord ∉ beforeOperator by decide)
  | forDo start limit body => exact ends_cons (show Category.cycle ∉ beforeOperator by decide)
  | ifThen condition branch => exact ends_cons (show Category.conditional ∉ beforeOperator by decide)
  | ifElse condition branch alternative => exact ends_cons (show Category.conditional ∉ beforeOperator by decide)
  | block operators lists => exact ends_cons (show Category.compoundOpen ∉ beforeOperator by decide)

/-- An operator for which there is no room is too deep. -/
theorem tooDeep_operator {context : Context} (hroom : t.hasRoom context.depth = false)
    (hw : Ends [.comment] ws) : TooDeep ⟨.operator context :: rest, t, ws⟩ := by
  obtain ⟨w, ws, rfl, hw⟩ := hw
  refine tooDeep_of_refuse (by simpa using hw) fun n => ?_
  simp [beginStatement, hroom]

theorem leads_room (hroom : t.hasRoom depth = true) (hw : Ends [.comment] ws) :
    Leads ⟨.room depth :: rest, t, ws⟩ ⟨rest, t, ws⟩ := by
  obtain ⟨w, ws, rfl, hw⟩ := hw
  exact leads_pass (by simpa using hw) fun n => by simp [hroom]

theorem tooDeep_room (hroom : t.hasRoom depth = false) (hw : Ends [.comment] ws) :
    TooDeep ⟨.room depth :: rest, t, ws⟩ := by
  obtain ⟨w, ws, rfl, hw⟩ := hw
  refine tooDeep_of_refuse (by simpa using hw) fun n => ?_
  simp [hroom]

/-- Behind a branch an `else` leads to the operator of the last conditional that waits. -/
theorem leads_alternative (ht : t.Shows frames) (hp : Pending base c'.depth c'.waiting goals)
    (hext : c.branch.Extends c') (hroom : c'.depth + compoundsIn frames ≤ maxNesting) (he : Ends [.comment] ws) :
    ∃ goals', Pending base c'.alternative.depth c'.alternative.waiting goals' ∧
      Leads ⟨.moreStatements c'.context :: goals, t, elseWord :: ws⟩ ⟨.operator c'.alternative.context :: goals', t, ws⟩ := by
  obtain ⟨depth, waiting⟩ := c'
  obtain ⟨_, later, hl, _⟩ := hext
  cases waiting with
  | nil => simp [Tally.branch] at hl
  | cons d waiting =>
    obtain ⟨hlt, goals', hp', hleads⟩ := leads_else ht hp.top hroom
    simp only at hlt hroom
    have hfits : t.hasRoom (d + 1) = true := (ht.hasRoom_iff _).mpr (by omega)
    exact ⟨goals', hp'.mono (Nat.le_succ d), hleads.trans (leads_room hfits he)⟩

/-- Between brackets more statements are awaited like an operator. -/
theorem leads_moreStatements {context : Context} (hin : t.inCompound = true) (hw : Ends [.comment] ws) :
    Leads ⟨.moreStatements context :: rest, t, ws⟩ ⟨.operator context :: rest, t, ws⟩ := by
  obtain ⟨w, ws, rfl, hw⟩ := hw
  exact leads_of_onLexeme (by simpa using hw) fun n => by simp [hin]

/-! ## What becomes of an operator -/

/-- Reading on leads to the words behind an operator with the frames and the count behind it, or it is too deep where
there is no count. -/
def Comes (base : List Goal) (start : Config) (ws : List Word) (frames : List Frame) : Option Tally → Prop
  | none => TooDeep start
  | some c => ∃ t goals, t.Shows frames ∧ Pending base c.depth c.waiting goals ∧
      Leads start ⟨.moreStatements c.context :: goals, t, ws⟩

theorem Comes.of_leads {start start' : Config} {c? : Option Tally} (h : Leads start start')
    (h' : Comes base start' ws frames c?) : Comes base start ws frames c? := by
  cases c? with
  | none => exact h.tooDeep h'
  | some c =>
    obtain ⟨t, goals, ht, hp, hleads⟩ := h'
    exact ⟨t, goals, ht, hp, h.trans hleads⟩

/-- What comes behind two parts comes of the second behind the first. -/
theorem Comes.bind {start : Config} {c? : Option Tally} {f : Tally → Option Tally}
    (h : Comes base start ws frames c?)
    (h' : ∀ {c t goals}, c? = some c → t.Shows frames → Pending base c.depth c.waiting goals →
      Comes base ⟨.moreStatements c.context :: goals, t, ws⟩ ws' frames' (f c)) :
    Comes base start ws' frames' (c?.bind f) := by
  cases c? with
  | none => exact h
  | some c =>
    obtain ⟨t, goals, ht, hp, hleads⟩ := h
    exact (h' rfl ht hp).of_leads hleads

/-- Behind a statement without statements in it the count is the one before. -/
theorem comes_of_leads {start : Config} (ht : t.Shows frames) (hp : Pending base c.depth c.waiting goals)
    (hroom : t.hasRoom c.context.depth = true) (h : Leads start ⟨.moreStatements c.context :: goals, t, ws⟩) :
    Comes base start ws frames (if c.depth + compoundsIn frames ≤ maxNesting then some c else none) := by
  rw [if_pos (show c.depth + compoundsIn frames ≤ maxNesting from (ht.hasRoom_iff _).mp hroom)]
  exact ⟨t, goals, ht, hp, h⟩

/-- An operator may be read with room for it in mind: without, there is no count. -/
theorem comes_of_room (o : Operator) (ht : t.Shows frames)
    (h : t.hasRoom c.context.depth = true →
      Comes base ⟨.operator c.context :: rest, t, o.words ++ ws⟩ ws' frames' (o.tally? (compoundsIn frames) c)) :
    Comes base ⟨.operator c.context :: rest, t, o.words ++ ws⟩ ws' frames' (o.tally? (compoundsIn frames) c) := by
  cases hroom : t.hasRoom c.context.depth with
  | true => exact h hroom
  | false =>
    cases hc : o.tally? (compoundsIn frames) c with
    | none => exact tooDeep_operator hroom ((ends_operator o).mono (by decide))
    | some c' =>
      have hlimit := nesting_le_of_tally? o hc
      have hfits := (ht.hasRoom_iff c.context.depth).mpr (show c.depth + compoundsIn frames ≤ maxNesting by omega)
      rw [hroom] at hfits
      cases hfits

/-! ## Statements without statements in them -/

/-- Where there is room, an operator begins with the first word of a statement. -/
theorem leads_begin {context : Context} (new : List Goal) (hroom : t.hasRoom context.depth = true)
    (hw : w.category ≠ .comment) (h : Begins t w.lexeme context t' new) :
    Leads ⟨.operator context :: rest, t, w :: ws⟩ ⟨new ++ rest, t', ws⟩ :=
  leads_take new hw fun _ => take_of_begins hroom h

/-- An operator takes the word `var` and goes on as before. -/
theorem onLexeme_operator_var {context : Context} (hroom : t.hasRoom context.depth = true) (n : Nat) :
    (Goal.operator context).onLexeme t ⟨n, none⟩ (Word.lexeme ⟨.varWord, "var"⟩) =
      .take t [.typeName, .operator context] := by
  rw [Goal.onLexeme_operator]
  exact take_of_begins hroom (.var rfl)

theorem leads_moreReadTargets {more : List String} (ht : t.Shows frames)
    (h : more.all fun name => (typeIn? frames name).isSome) :
    Leads ⟨.moreReadTargets :: .word .parenthesis ")" :: rest, t,
      (more.flatMap fun name => [commaWord, nameWord name]) ++ ⟨.parenthesis, ")"⟩ :: ws⟩ ⟨rest, t, ws⟩ := by
  induction more with
  | nil =>
    have hend : Leads ⟨.moreReadTargets :: .word .parenthesis ")" :: rest, t, ⟨.parenthesis, ")"⟩ :: ws⟩
        ⟨.word .parenthesis ")" :: rest, t, ⟨.parenthesis, ")"⟩ :: ws⟩ :=
      leads_pass (by simp) fun n => rfl
    exact hend.trans (leads_take [] (by simp) fun n => rfl)
  | cons name more ih =>
    simp only [List.all_cons, Bool.and_eq_true] at h
    simp only [List.flatMap_cons, List.cons_append, List.nil_append]
    have hcomma : ∀ {ws}, Leads ⟨.moreReadTargets :: .word .parenthesis ")" :: rest, t, commaWord :: ws⟩
        ⟨.readTarget :: .moreReadTargets :: .word .parenthesis ")" :: rest, t, ws⟩ :=
      leads_take [.readTarget, .moreReadTargets] (by simp) fun n => rfl
    have hname : ∀ {rest ws}, Leads ⟨.readTarget :: rest, t, nameWord name :: ws⟩ ⟨rest, t, ws⟩ :=
      leads_take [] (by simp) fun n => by
        simp [ht.find?, h.1]
    exact hcomma.trans (hname.trans (ih h.2))

/-- The words of an operator that reads variables are read. -/
theorem leads_read {context : Context} {first : String} {more : List String} (ht : t.Shows frames)
    (hroom : t.hasRoom context.depth = true) (h : (first :: more).all fun name => (typeIn? frames name).isSome) :
    Leads ⟨.operator context :: rest, t, (Operator.read first more).words ++ ws⟩
      ⟨.moreStatements context :: rest, t, ws⟩ := by
  rw [List.all_cons, Bool.and_eq_true] at h
  simp only [Operator.words, List.cons_append, List.append_assoc, List.nil_append]
  have hread : ∀ {ws}, Leads ⟨.operator context :: rest, t, ⟨.readWord, "read"⟩ :: ws⟩
      ⟨readGoals ++ .moreStatements context :: rest, t, ws⟩ :=
    leads_begin (readGoals ++ [.moreStatements context]) hroom (by simp) (.read rfl)
  have hopen : ∀ {rest ws}, Leads ⟨.word .parenthesis "(" :: rest, t, ⟨.parenthesis, "("⟩ :: ws⟩ ⟨rest, t, ws⟩ :=
    leads_take [] (by simp) fun n => rfl
  have hname : ∀ {rest ws}, Leads ⟨.readTarget :: rest, t, nameWord first :: ws⟩ ⟨rest, t, ws⟩ :=
    leads_take [] (by simp) fun n => by
      simp [ht.find?, h.1]
  exact hread.trans (hopen.trans (hname.trans (leads_moreReadTargets ht h.2)))

/-- A condition that is written ends at a comma or at the parenthesis. -/
theorem ends_written (more : List Condition) :
    Ends inCondition ((more.flatMap fun c => commaWord :: c.words) ++ ⟨.parenthesis, ")"⟩ :: ws) := by
  cases more with
  | nil => exact ends_cons (by simp [inCondition])
  | cons c more => exact ends_cons (by simp [inCondition])

theorem leads_moreWritten {more : List Condition} (ht : t.Shows frames) (h : more.all (·.fitsIn frames)) :
    Leads ⟨.moreWritten :: .word .parenthesis ")" :: rest, t,
      (more.flatMap fun c => commaWord :: c.words) ++ ⟨.parenthesis, ")"⟩ :: ws⟩ ⟨rest, t, ws⟩ := by
  induction more with
  | nil =>
    have hend : Leads ⟨.moreWritten :: .word .parenthesis ")" :: rest, t, ⟨.parenthesis, ")"⟩ :: ws⟩
        ⟨.word .parenthesis ")" :: rest, t, ⟨.parenthesis, ")"⟩ :: ws⟩ :=
      leads_pass (by simp) fun n => rfl
    exact hend.trans (leads_take [] (by simp) fun n => rfl)
  | cons c more ih =>
    simp only [List.all_cons, Bool.and_eq_true] at h
    simp only [List.flatMap_cons, List.cons_append, List.append_assoc]
    have hcomma : ∀ {ws}, Leads ⟨.moreWritten :: .word .parenthesis ")" :: rest, t, commaWord :: ws⟩
        ⟨comparison ++ .moreWritten :: .word .parenthesis ")" :: rest, t, ws⟩ :=
      leads_take (comparison ++ [.moreWritten]) (by simp) fun n => rfl
    exact hcomma.trans ((leads_condition ht h.1 (ends_written more)).trans (ih h.2))

/-- The words of an operator that writes values are read. -/
theorem leads_write {context : Context} {first : Condition} {more : List Condition} (ht : t.Shows frames)
    (hroom : t.hasRoom context.depth = true) (h : (first :: more).all (·.fitsIn frames)) :
    Leads ⟨.operator context :: rest, t, (Operator.write first more).words ++ ws⟩
      ⟨.moreStatements context :: rest, t, ws⟩ := by
  rw [List.all_cons, Bool.and_eq_true] at h
  simp only [Operator.words, List.cons_append, List.append_assoc, List.nil_append]
  have hwrite : ∀ {ws}, Leads ⟨.operator context :: rest, t, ⟨.writeWord, "write"⟩ :: ws⟩
      ⟨writeGoals ++ .moreStatements context :: rest, t, ws⟩ :=
    leads_begin (writeGoals ++ [.moreStatements context]) hroom (by simp) (.write rfl)
  have hopen : ∀ {rest ws}, Leads ⟨.word .parenthesis "(" :: rest, t, ⟨.parenthesis, "("⟩ :: ws⟩ ⟨rest, t, ws⟩ :=
    leads_take [] (by simp) fun n => rfl
  exact hwrite.trans (hopen.trans ((leads_condition ht h.1 (ends_written more)).trans (leads_moreWritten ht h.2)))

/-- The words of a conditional up to its `then` are read. -/
theorem leads_if {condition : Condition} (ht : t.Shows frames) (hroom : t.hasRoom c.context.depth = true)
    (h : condition.fitsIn frames) :
    Leads ⟨.operator c.context :: rest, t, ⟨.conditional, "if"⟩ :: (condition.words ++ ⟨.conditional, "then"⟩ :: ws)⟩
      ⟨.operator c.branch.context :: .elseBranch c.context :: .moreStatements c.context :: rest, t, ws⟩ := by
  have hif : ∀ {ws}, Leads ⟨.operator c.context :: rest, t, ⟨.conditional, "if"⟩ :: ws⟩
      ⟨comparison ++ .word .conditional "then" :: .operator c.branch.context :: .elseBranch c.context ::
        .moreStatements c.context :: rest, t, ws⟩ :=
    leads_begin (ifGoals c.context ++ [.moreStatements c.context]) hroom (by simp) (.conditional rfl rfl)
  have hthen : ∀ {rest ws}, Leads ⟨.word .conditional "then" :: rest, t, ⟨.conditional, "then"⟩ :: ws⟩ ⟨rest, t, ws⟩ :=
    leads_take [] (by simp) fun n => rfl
  exact hif.trans ((leads_condition ht h (ends_cons (by simp [inCondition]))).trans hthen)

/-- Where the words of operators stand, what stands before them has ended. -/
theorem ends_operators (os : List Operator) (he : Ends (inCondition ++ inList) ws) :
    Ends inCondition (Operator.wordsOfAll os ++ ws) := by
  cases os with
  | nil => exact he.mono (by decide)
  | cons o os =>
    rw [Operator.wordsOfAll, List.append_assoc]
    exact (ends_operator o).mono (by decide)

theorem ends_lists (lists : List VariableList) (hw : w.category ∉ beforeOperator) :
    Ends beforeOperator (lists.flatMap (·.words) ++ w :: ws) := by
  cases lists with
  | nil => exact ends_cons hw
  | cons l lists => exact ends_cons (show Category.varWord ∉ beforeOperator by decide)

/-- Lists of variables and the bracket behind them are read. -/
theorem leads_close {context : Context} {lists : List VariableList} (ht : t.Shows frames)
    (hin : frames.head?.any (·.compound)) (hroom : t.hasRoom context.depth = true)
    (h : declareAll? lists frames = some frames') :
    ∃ t', t'.Shows frames'.tail ∧
      Leads ⟨.moreStatements context :: rest, t, lists.flatMap (·.words) ++ ⟨.compoundClose, "]"⟩ :: ws⟩
        ⟨.moreStatements context :: rest, t', ws⟩ := by
  have hstart : Leads ⟨.moreStatements context :: rest, t, lists.flatMap (·.words) ++ ⟨.compoundClose, "]"⟩ :: ws⟩
      ⟨.operator context :: rest, t, lists.flatMap (·.words) ++ ⟨.compoundClose, "]"⟩ :: ws⟩ :=
    leads_moreStatements (ht.inCompound.trans hin) ((ends_lists lists (by decide)).mono (by decide))
  have hkeeps : ∀ {t₁ : ScopeTable} {frames₁ : List Frame}, t₁.Shows frames₁ → shape frames₁ = shape frames →
      t₁.hasRoom context.depth = true := fun ht₁ hs => by
    rw [ht₁.hasRoom_iff, compoundsIn_congr hs, ← ht.hasRoom_iff]
    exact hroom
  have hshape := shape_declareAll? h
  have hends : Ends inList (⟨.compoundClose, "]"⟩ :: ws) := ends_cons (by decide)
  obtain ⟨t', ht', hlists⟩ := leads_lists ht h hends
    fun ht₁ hs n => onLexeme_operator_var (hkeeps ht₁ hs) n
  have hclose : Leads ⟨.operator context :: rest, t', ⟨.compoundClose, "]"⟩ :: ws⟩
      ⟨.moreStatements context :: rest, t'.closeBlock, ws⟩ :=
    leads_begin [.moreStatements context] (hkeeps ht' hshape) (by simp)
      (.closing rfl (by rw [ht'.inCompound, inCompound_congr hshape, hin]))
  exact ⟨t'.closeBlock, ht'.closeBlock, hstart.trans (hlists.trans hclose)⟩

/-! ## All operators -/

mutual

/-- Reading the words of a well-scoped operator leads behind it, with the count that the tree tells, or is too deep. -/
theorem comes_operator : ∀ (o : Operator) {t : ScopeTable} {frames frames' : List Frame} {c : Tally}
    {rest : List Goal} {ws : List Word}, t.Shows frames → o.scope? frames = some frames' →
    Pending base c.depth c.waiting rest → Ends inCondition ws →
    Comes base ⟨.operator c.context :: rest, t, o.words ++ ws⟩ ws frames' (o.tally? (compoundsIn frames) c)
  | .declaring l o, t, frames, frames', c, rest, ws, ht, h, hp, he =>
    comes_of_room _ ht fun hroom => by
      obtain ⟨frames₁, hl, ho⟩ := Option.bind_eq_some_iff.mp h
      have hends : Ends inList (o.words ++ ws) := (ends_operator o).mono (by decide)
      obtain ⟨t', ht', hlist⟩ := leads_variables ht hl hends (onLexeme_operator_var hroom)
      have hbody := comes_operator o ht' ho hp he
      rw [compoundsIn_congr (shape_declare? hl)] at hbody
      rw [Operator.words, List.append_assoc]
      exact hbody.of_leads hlist
  | .assign a, t, frames, frames', c, rest, ws, ht, h, hp, he =>
    comes_of_room _ ht fun hroom => by
      simp only [Operator.scope?, Option.ite_none_right_eq_some, Option.some.injEq] at h
      obtain ⟨hfits, rfl⟩ := h
      refine comes_of_leads ht hp hroom (leads_assignment [.moreStatements c.context] ht hfits he.ofCondition ?_)
      intro n
      simp [beginStatement, hroom]
  | .read first more, t, frames, frames', c, rest, ws, ht, h, hp, he =>
    comes_of_room _ ht fun hroom => by
      simp only [Operator.scope?, Option.ite_none_right_eq_some, Option.some.injEq] at h
      obtain ⟨hknown, rfl⟩ := h
      exact comes_of_leads ht hp hroom (leads_read ht hroom hknown)
  | .write first more, t, frames, frames', c, rest, ws, ht, h, hp, he =>
    comes_of_room _ ht fun hroom => by
      simp only [Operator.scope?, Option.ite_none_right_eq_some, Option.some.injEq] at h
      obtain ⟨hfits, rfl⟩ := h
      exact comes_of_leads ht hp hroom (leads_write ht hroom hfits)
  | .whileDo condition body, t, frames, frames', c, rest, ws, ht, h, hp, he =>
    comes_of_room _ ht fun hroom => by
      simp only [Operator.scope?, Option.ite_none_right_eq_some] at h
      obtain ⟨hfits, hbody⟩ := h
      have hcomes := comes_operator body (c := c.body) ht hbody hp.body he
      simp only [Operator.words, List.cons_append, List.append_assoc, Operator.tally?]
      refine hcomes.of_leads ?_
      have hwhile : ∀ {ws}, Leads ⟨.operator c.context :: rest, t, ⟨.whileWord, "while"⟩ :: ws⟩
          ⟨comparison ++ .word .doWord "do" :: .operator c.body.context :: .moreStatements c.context :: rest, t, ws⟩ :=
        leads_begin (whileGoals c.context ++ [.moreStatements c.context]) hroom (by simp) (.whileDo rfl)
      have hdo : ∀ {rest ws}, Leads ⟨.word .doWord "do" :: rest, t, ⟨.doWord, "do"⟩ :: ws⟩ ⟨rest, t, ws⟩ :=
        leads_take [] (by simp) fun n => rfl
      exact hwhile.trans ((leads_condition ht hfits (ends_cons (by simp [inCondition]))).trans hdo)
  | .forDo start limit body, t, frames, frames', c, rest, ws, ht, h, hp, he =>
    comes_of_room _ ht fun hroom => by
      simp only [Operator.scope?, Option.ite_none_right_eq_some, Bool.and_eq_true] at h
      obtain ⟨⟨hstart, hlimit⟩, hbody⟩ := h
      have hcomes := comes_operator body (c := c.body) ht hbody hp.body he
      simp only [Operator.words, List.cons_append, List.append_assoc, Operator.tally?]
      refine hcomes.of_leads ?_
      have hfor : ∀ {ws}, Leads ⟨.operator c.context :: rest, t, ⟨.cycle, "for"⟩ :: ws⟩
          ⟨.target :: .word .cycle "to" :: (comparison ++ .word .doWord "do" :: .operator c.body.context ::
            .moreStatements c.context :: rest), t, ws⟩ :=
        leads_begin (forGoals c.context ++ [.moreStatements c.context]) hroom (by simp) (.forDo rfl rfl)
      have hassign : ∀ {rest ws}, Leads ⟨.target :: rest, t, start.words ++ ⟨.cycle, "to"⟩ :: ws⟩
          ⟨rest, t, ⟨.cycle, "to"⟩ :: ws⟩ :=
        leads_assignment [] ht hstart (ends_cons (by simp [inExpression])) fun n => by
          simp
      have hto : ∀ {rest ws}, Leads ⟨.word .cycle "to" :: rest, t, ⟨.cycle, "to"⟩ :: ws⟩ ⟨rest, t, ws⟩ :=
        leads_take [] (by simp) fun n => rfl
      have hdo : ∀ {rest ws}, Leads ⟨.word .doWord "do" :: rest, t, ⟨.doWord, "do"⟩ :: ws⟩ ⟨rest, t, ws⟩ :=
        leads_take [] (by simp) fun n => rfl
      exact hfor.trans (hassign.trans (hto.trans
        ((leads_condition ht hlimit (ends_cons (by simp [inCondition]))).trans hdo)))
  | .ifThen condition branch, t, frames, frames', c, rest, ws, ht, h, hp, he =>
    comes_of_room _ ht fun hroom => by
      simp only [Operator.scope?, Option.ite_none_right_eq_some] at h
      obtain ⟨hfits, hbranch⟩ := h
      have hcomes := comes_operator branch (c := c.branch) ht hbranch hp.branch he
      simp only [Operator.words, List.cons_append, List.append_assoc, Operator.tally?]
      exact hcomes.of_leads (leads_if ht hroom hfits)
  | .ifElse condition branch alternative, t, frames, frames', c, rest, ws, ht, h, hp, he =>
    comes_of_room _ ht fun hroom => by
      simp only [Operator.scope?, Option.ite_none_right_eq_some] at h
      obtain ⟨hfits, hbind⟩ := h
      obtain ⟨frames₁, hbranch, halternative⟩ := Option.bind_eq_some_iff.mp hbind
      have hends : Ends inCondition (elseWord :: (alternative.words ++ ws)) :=
        ends_cons (by simp [inCondition])
      have hcomes := comes_operator branch (c := c.branch) ht hbranch hp.branch hends
      simp only [Operator.words, List.cons_append, List.append_assoc, Operator.tally?]
      refine (hcomes.of_leads (leads_if ht hroom hfits)).bind fun hc ht₁ hp₁ => ?_
      have hblocks := compoundsIn_congr (shape_scope? branch hbranch)
      obtain ⟨hext, hlimit⟩ := tally?_extends branch hc
      rw [← hblocks] at hlimit ⊢
      obtain ⟨goals', hp', helse⟩ := leads_alternative ht₁ hp₁ hext hlimit ((ends_operator alternative).mono (by decide))
      exact (comes_operator alternative ht₁ halternative hp' he).of_leads helse
  | .block operators lists, t, frames, frames', c, rest, ws, ht, h, hp, he =>
    comes_of_room _ ht fun hroom => by
      obtain ⟨frames₁, hbind, rfl⟩ := Option.map_eq_some_iff.mp h
      obtain ⟨frames₂, hos, hlists⟩ := Option.bind_eq_some_iff.mp hbind
      have ht₁ : (t.openInner (.compound 0)).Shows (⟨true, []⟩ :: frames) := ht.openInner (.compound 0)
      have hends : Ends beforeOperator (lists.flatMap (·.words) ++ ⟨.compoundClose, "]"⟩ :: ws) :=
        ends_lists lists (by decide)
      have hcomes := comes_operators operators ht₁ rfl hos hp hends
      have hopen : ∀ {ws}, Leads ⟨.operator c.context :: rest, t, ⟨.compoundOpen, "["⟩ :: ws⟩
          ⟨.room c.context.depth :: .moreStatements c.context :: rest, t.openInner (.compound 0), ws⟩ :=
        leads_begin [.room c.context.depth, .moreStatements c.context] hroom (by simp) (.opening rfl)
      have hfirst := (ends_operators operators hends).mono (show [.comment] ⊆ inCondition by decide)
      simp only [Operator.words, List.cons_append, List.append_assoc, List.nil_append, Operator.tally?]
      have hbracket : compoundsIn (⟨true, []⟩ :: frames) = compoundsIn frames + 1 := by simp
      rw [hbracket] at hcomes
      have hlimit := ht₁.hasRoom_iff c.context.depth
      rw [hbracket] at hlimit
      split
      case isTrue hle =>
        have hcomes := hcomes.of_leads (hopen.trans (leads_room (hlimit.mpr hle) hfirst))
        cases hc : Operator.tallyOfAll? (compoundsIn frames + 1) operators c with
        | none =>
          rw [hc] at hcomes
          exact hcomes
        | some c₁ =>
          rw [hc] at hcomes
          obtain ⟨t₂, goals, ht₂, hp₂, hbody⟩ := hcomes
          have hshape := shape_scopeOfAll? operators hos
          have hroom₂ : t₂.hasRoom c₁.context.depth = true := by
            rw [ht₂.hasRoom_iff, compoundsIn_congr hshape, hbracket]
            exact (tallyOfAll?_extends operators hc hle).2
          obtain ⟨t', ht', hclose⟩ := leads_close ht₂ (inCompound_congr hshape) hroom₂ hlists
          exact ⟨t', goals, ht', hp₂, hbody.trans hclose⟩
      case isFalse hgt =>
        have hfull : (t.openInner (.compound 0)).hasRoom c.context.depth = false := by
          rw [← Bool.not_eq_true, hlimit]
          exact hgt
        exact hopen.tooDeep (tooDeep_room hfull hfirst)

/-- Between brackets the words of operators that stand one behind the other are read alike. -/
theorem comes_operators : ∀ (os : List Operator) {t : ScopeTable} {frames frames' : List Frame} {c : Tally}
    {rest : List Goal} {ws : List Word}, t.Shows frames → frames.head?.any (·.compound) →
    Operator.scopeOfAll? os frames = some frames' → Pending base c.depth c.waiting rest →
    Ends (inCondition ++ inList) ws →
    Comes base ⟨.moreStatements c.context :: rest, t, Operator.wordsOfAll os ++ ws⟩ ws frames'
      (Operator.tallyOfAll? (compoundsIn frames) os c)
  | [], t, frames, frames', c, rest, ws, ht, hin, h, hp, he => by
    cases h
    exact ⟨t, rest, ht, hp, Leads.refl _⟩
  | o :: os, t, frames, frames', c, rest, ws, ht, hin, h, hp, he => by
    obtain ⟨frames₁, ho, hos⟩ := Option.bind_eq_some_iff.mp h
    have hshape := shape_scope? o ho
    have hstart : Leads ⟨.moreStatements c.context :: rest, t, o.words ++ (Operator.wordsOfAll os ++ ws)⟩
        ⟨.operator c.context :: rest, t, o.words ++ (Operator.wordsOfAll os ++ ws)⟩ :=
      leads_moreStatements (ht.inCompound.trans hin) ((ends_operator o).mono (by decide))
    have hcomes := (comes_operator o ht ho hp (ends_operators os he)).of_leads hstart
    rw [Operator.wordsOfAll, List.append_assoc, Operator.tallyOfAll?, ← compoundsIn_congr hshape]
    rw [← compoundsIn_congr hshape] at hcomes
    exact hcomes.bind fun _ ht₁ hp₁ => comes_operators os ht₁ ((inCompound_congr hshape).trans hin) hos hp₁ he

end

end MiniPascal
