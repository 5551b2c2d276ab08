import MiniPascal.Dictionary.Builtin
import MiniPascal.Proofs.Analysis.Stop
import MiniPascal.Proofs.Analysis.Turns
import MiniPascal.Proofs.Literals
import MiniPascal.Proofs.Renaming.Tables

/-!
# Programs under other names

Other names and literals in place of those of a program, the names told apart as before and each literal by one of the
same type, lead to the same report and to the same blocks under the new names (`reports_of_renamed`).

* `Renames`: which changes of the unclassified words of a program are allowed.
* `Alike`: what a goal can tell of one word and of the word in its place; `onLexeme_renamed`: it treats them alike.
* `run_renamed`: the two runs.
-/

namespace MiniPascal

variable {f : String → String} {program : List Lexeme} {t t' : ScopeTable} {here : Place} {x : Lexeme} {g : Goal}
  {goals : List Goal} {type : DataType} {expected : Option DataType} {context : Context} {s s' : State}

/-! ## Renaming -/

/-- The lexeme with another word in place of a name, a literal or anything else that no table lists. -/
def Lexeme.renamed (f : String → String) (x : Lexeme) : Lexeme :=
  if x.category = .unclassified then { x with text := f x.text } else x

/-- The words of a program that no table lists. -/
def Wild (program : List Lexeme) (word : String) : Prop :=
  ∃ x ∈ program, x.category = .unclassified ∧ x.text = word

/-- Other words for those of a program that no table lists: names for names, literals for literals of the same type, and
different names for different names. -/
structure Renames (f : String → String) (program : List Lexeme) : Prop where
  identifier {word : String} (hw : Wild program word) : isIdentifier (f word) = isIdentifier word
  literal {word : String} (hw : Wild program word) : DataType.ofLiteral? (f word) = DataType.ofLiteral? word
  injective {v w : String} (hv : Wild program v) (hw : Wild program w) (hvn : isIdentifier v) (hwn : isIdentifier w)
    (h : f v = f w) : v = w

/-- Every variable is named by an identifier of a program. -/
def ScopeTable.NamesFrom (t : ScopeTable) (program : List Lexeme) : Prop :=
  ∀ b ∈ t.blocks, ∀ v ∈ b.declared, Wild program v.1 ∧ isIdentifier v.1

/-- What a goal can tell of a word is the same of the word in its place. -/
structure Alike (f : String → String) (t : ScopeTable) (word : String) : Prop where
  identifier : isIdentifier (f word) = isIdentifier word
  literal : DataType.ofLiteral? (f word) = DataType.ofLiteral? word
  tells : t.Tells f word

/-- The words of a program are told from its variables as before: an identifier since different names stay different, and
any other word since no variable is named by it. -/
theorem Renames.alike (hf : Renames f program) (ht : t.NamesFrom program) {word : String} (hw : Wild program word) :
    Alike f t word where
  identifier := hf.identifier hw
  literal := hf.literal hw
  tells b hb v hv heq := by
    obtain ⟨hwild, hname⟩ := ht b hb v hv
    refine hf.injective hwild hw hname ?_ heq
    rw [← hf.identifier hw, ← heq, hf.identifier hwild]
    exact hname

/-! ## Reactions -/

/-- The reaction with the variables of its scope table renamed. -/
def Reaction.renamed (f : String → String) : Reaction → Reaction
  | .take scope goals => .take (scope.renamed f) goals
  | r => r

section Reactions

@[simp]
theorem renamed_take : (Reaction.take t goals).renamed f = .take (t.renamed f) goals := rfl

@[simp]
theorem renamed_pass : Reaction.pass.renamed f = .pass := rfl

@[simp]
theorem renamed_refuse (halt : Halt) : (Reaction.refuse halt).renamed f = .refuse halt := rfl

@[simp]
theorem renamed_ite {p : Prop} [Decidable p] (r r' : Reaction) :
    (if p then r else r').renamed f = if p then r.renamed f else r'.renamed f :=
  apply_ite _ p r r'

@[simp]
theorem before_renamed (r : Reaction) (goals : List Goal) : (r.renamed f).before goals = (r.before goals).renamed f := by
  cases r <;> rfl

@[simp]
theorem category_renamed : (x.renamed f).category = x.category := by
  unfold Lexeme.renamed
  split <;> rfl

theorem renamed_of_unclassified (hx : x.category = .unclassified) : x.renamed f = { x with text := f x.text } :=
  if_pos hx

@[simp]
theorem renamed_of_ne (hx : x.category ≠ .unclassified) : x.renamed f = x :=
  if_neg hx

theorem is_renamed {category : Category} {text : String} (hc : category ≠ .unclassified) :
    (x.renamed f).is category text = x.is category text := by
  by_cases hx : x.category = .unclassified
  · simp [hx, hc.symm]
  · simp [hx]

theorem resolve?_renamed (h : x.category = .unclassified → Alike f t x.text) :
    (x.renamed f).resolve? (t.renamed f) = x.resolve? t := by
  by_cases hx : x.category = .unclassified
  · simp [renamed_of_unclassified hx, hx, (h hx).tells]
  · simp [hx]

theorem declareName_renamed (h : x.category = .unclassified → Alike f t x.text) :
    declareName (t.renamed f) here (x.renamed f) type = (declareName t here x type).renamed f := by
  by_cases hx : x.category = .unclassified
  · cases hcurrent : t.current? with
    | none => simp [declareName, renamed_of_unclassified hx, hx, (h hx).identifier, hcurrent]
    | some block =>
      cases hd : t.declare block x.text type <;>
        simp [declareName, renamed_of_unclassified hx, hx, (h hx).identifier, hcurrent,
          ScopeTable.declare_renamed (h hx).tells, hd]
  · simp [declareName, hx]

theorem assignTo_renamed (h : x.category = .unclassified → Alike f t x.text) :
    assignTo (t.renamed f) here (x.renamed f) = (assignTo t here x).renamed f := by
  cases htarget : x.resolve? t <;> simp [assignTo, resolve?_renamed h, htarget]

/-- A word fits where the word in its place does. -/
theorem fits_renamed {word : String} (h : Alike f t word) :
    fits expected (t.find? word) (f word) = fits expected (t.find? word) word := by
  cases expected with
  | none => rfl
  | some type =>
    cases t.find? word with
    | some actual => rfl
    | none =>
      rw [fits, fits, Bool.eq_iff_iff, ← DataType.ofLiteral?_eq_some_iff, ← DataType.ofLiteral?_eq_some_iff, h.literal]

theorem takeOperand_renamed (h : x.category = .unclassified → Alike f t x.text) :
    takeOperand (t.renamed f) here (x.renamed f) expected = (takeOperand t here x expected).renamed f := by
  by_cases hx : x.category = .unclassified
  · simp [takeOperand, renamed_of_unclassified hx, hx, (h hx).tells, (h hx).literal, (h hx).identifier,
      fits_renamed (h hx)]
  · simp [takeOperand, hx]

theorem beginStatement_renamed (h : x.category = .unclassified → Alike f t x.text) :
    beginStatement (t.renamed f) here (x.renamed f) context = (beginStatement t here x context).renamed f := by
  unfold beginStatement
  cases hx : x.category <;> simp [hx, assignTo_renamed h]

/-- A goal treats a lexeme as it treats the one in its place. -/
theorem onLexeme_renamed (hg : g.Plain) (h : x.category = .unclassified → Alike f t x.text) :
    g.onLexeme (t.renamed f) here (x.renamed f) = (g.onLexeme t here x).renamed f := by
  cases g with
  | operator context => exact beginStatement_renamed h
  | moreStatements context =>
    simp [beginStatement_renamed h]
  | variableName type => exact declareName_renamed h
  | target => exact assignTo_renamed h
  | operand expected => exact takeOperand_renamed h
  | term expected =>
    simp [takeOperand_renamed h]
  | readTarget =>
    simp [resolve?_renamed h]
  | typeName =>
    have htype : (x.renamed f).namedType? = x.namedType? := by
      by_cases hx : x.category = .typeWord <;> simp [hx]
    cases hnamed : x.namedType? <;> simp [htype, hnamed]
  | word category text =>
    have hword : category ≠ .unclassified := fun hc => absurd (hc ▸ hg.1) (by decide)
    simp [is_renamed hword]
  | elseBranch context => simp [is_renamed (show Category.conditional ≠ .unclassified by decide)]
  | moreOperators => cases hloose : here.loose? <;> simp [hloose]
  | _ => simp

theorem offer_renamed (hplain : ∀ g ∈ goals, g.Plain) (h : x.category = .unclassified → Alike f t x.text) :
    offer (t.renamed f) here (x.renamed f) goals = (offer t here x goals).renamed f := by
  induction goals with
  | nil => rfl
  | cons g rest ih =>
    rw [offer, offer, onLexeme_renamed (hplain g List.mem_cons_self) h]
    cases g.onLexeme t here x with
    | pass => exact ih fun g' hg' => hplain g' (List.mem_cons_of_mem _ hg')
    | _ => rfl

@[simp]
theorem complaint_renamed : complaint (t.renamed f) here goals = complaint t here goals := by
  have hend (g : Goal) : g.onEnd (t.renamed f) here = g.onEnd t here := by
    cases g <;> simp [Goal.onEnd, endStatement]
  simp [complaint, hend]

end Reactions

/-! ## Runs -/

/-- The state with the variables of its scope table renamed. -/
@[simps]
def State.renamed (f : String → String) (s : State) : State :=
  { s with scope := s.scope.renamed f }

@[simp]
theorem isFull_renamed : (s.renamed f).isFull = s.isFull := by
  simp [State.isFull]

theorem readInside_renamed (opening : Nat) (mark : String) (index : Nat) :
    readInside opening mark index (x.renamed f) = readInside opening mark index x := by
  by_cases hx : x.category = .comment <;> simp [readInside, hx]

theorem step_renamed (hplain : ∀ g ∈ s.goals, g.Plain) (h : x.category = .unclassified → Alike f s.scope x.text) :
    (s.renamed f).step (x.renamed f) =
      match s.step x with
      | .error halt => .error halt
      | .ok next => .ok (next.renamed f) := by
  have hmargin := s.renamed_margin f
  cases hm : s.margin with
  | inside opening mark =>
    rw [State.step_of_inside (hmargin.trans hm), State.step_of_inside hm, readInside_renamed]
    rfl
  | outside loose? =>
    by_cases hc : x.category = .comment
    · rw [State.step_of_comment (hmargin.trans hm) (category_renamed.trans hc), State.step_of_comment hm hc,
        isFull_renamed, renamed_of_ne (by simp [hc])]
      split
      · rfl
      · split <;> rfl
    · have hc' : (x.renamed f).category ≠ .comment := by simpa using hc
      rw [State.step_of_word (hmargin.trans hm) hc', State.step_of_word hm hc]
      simp only [State.renamed_scope, State.renamed_read, State.renamed_goals, offer_renamed hplain h]
      cases offer s.scope ⟨s.read, loose?⟩ x s.goals <;> rfl

/-- A word that is read leaves variables that are named by identifiers of the program. -/
theorem ScopeTable.NamesFrom.alters (ht : t.NamesFrom program) (hx : x ∈ program) (h : Alters t x g t') :
    t'.NamesFrom program := by
  have hopen (kind : BlockKind) (p : Nat) : (t.openBlock kind p).NamesFrom program := by
    intro b hb v hv
    rcases Array.mem_push.mp hb with hb | rfl
    · exact ht b hb v hv
    · cases hv
  cases h with
  | keep => exact ht
  | program => exact hopen _ _
  | body => exact hopen _ _
  | opening => exact hopen _ _
  | closing | ending => exact ht
  | declare hc hn _ hd =>
    intro b hb v hv
    obtain ⟨i, hi⟩ := Array.mem_iff_getElem?.mp hb
    rw [ScopeTable.getElem?_of_declare hd] at hi
    split at hi
    · obtain ⟨b', hb', rfl⟩ := Option.map_eq_some_iff.mp hi
      rcases List.mem_append.mp hv with hv | hv
      · exact ht b' (Array.mem_of_getElem? hb') v hv
      · obtain rfl := List.mem_singleton.mp hv
        exact ⟨⟨x, hx, hc, rfl⟩, hn⟩
    · exact ht b (Array.mem_of_getElem? hi) v hv

/-- What a run under other names relies on. -/
structure Nameable (program : List Lexeme) (s : State) : Prop where
  plain : ∀ g ∈ s.goals, g.Plain
  names : s.scope.NamesFrom program

theorem nameable_initial : Nameable program .initial where
  plain := by simp [State.initial, Goal.Plain]
  names b hb v hv := by
    obtain rfl : b = ⟨.global, none, []⟩ := by simpa [State.initial, ScopeTable.empty] using hb
    cases hv

theorem Nameable.step (h : Nameable program s) (hx : x ∈ program) (hstep : s.step x = .ok s') : Nameable program s' := by
  cases moves_of_step hstep with
  | skip => exact ⟨h.plain, h.names⟩
  | comment => exact ⟨h.plain, h.names⟩
  | @goal _ passed rest new g _ _ _ hgoals _ hg =>
    have htakes := takes_of_onLexeme hg
    have hplain := h.plain
    rw [hgoals] at hplain
    have hgoal : g.Plain := hplain g (by simp)
    refine ⟨fun g' hmem => ?_, h.names.alters hx (alters_of_takes hgoal htakes)⟩
    rcases List.mem_append.mp hmem with hmem | hmem
    · exact plain_of_takes htakes g' hmem
    · exact hplain g' (by simp [hmem])

/-- The run over other names breaks the same rule at the same index and leaves the same blocks under the new names. -/
theorem run_renamed (hf : Renames f program) {rest : List Lexeme} (hrest : ∀ x ∈ rest, x ∈ program)
    (hs : Nameable program s) :
    (s.renamed f).run (rest.map (·.renamed f)) = ((s.run rest).1, (s.run rest).2.renamed f) := by
  induction rest generalizing s with
  | nil =>
    cases hm : s.margin <;> simp [State.run, State.finish, hm]
  | cons x rest ih =>
    have hx : x ∈ program := hrest x List.mem_cons_self
    have hstep := step_renamed hs.plain fun hc => hf.alike hs.names ⟨x, hx, hc, rfl⟩
    rw [List.map_cons, State.run, hstep, State.run]
    cases hnext : s.step x with
    | error halt => rfl
    | ok next => exact ih (fun y hy => hrest y (List.mem_cons_of_mem _ hy)) (hs.step hx hnext)

/-! ## Reports -/

/-- Other words for the names and literals of a program lead to the same report: none, or a breach of the same rule at the
same index. The blocks are the same ones under the new names. -/
theorem reports_of_renamed (hf : Renames f program) :
    (∃ halt? : Option Halt, (analyze program).diagnostic? = halt?.map (·.diagnostic program) ∧
      (analyze (program.map (·.renamed f))).diagnostic? = halt?.map (·.diagnostic (program.map (·.renamed f)))) ∧
    (analyze (program.map (·.renamed f))).scope = (analyze program).scope.renamed f := by
  have hinitial : State.initial.renamed f = .initial := by
    simp [State.initial, State.renamed, ScopeTable.empty, ScopeTable.renamed, Block.renamed]
  have hself : ∀ x ∈ program, x ∈ program := fun _ hx => hx
  have hrun := run_renamed hf hself nameable_initial
  rw [hinitial] at hrun
  refine ⟨⟨breach? program, diagnostic?_analyze program, ?_⟩, ?_⟩
  · rw [diagnostic?_analyze, breach?, hrun, breach?]
  · rw [analyze, hrun, analyze]

/-- A program with a name that is declared twice, literals, and a word that is neither. -/
def shadowed : List Lexeme :=
  tokenize .builtin "program var int x , y ; begin [ var bool x x := true ] ; y := 1 + x ; y := 1x end"

/-- Other words for those of the program, one of which takes the place of another. -/
def reworded (word : String) : String :=
  if word = "x" then "y" else if word = "y" then "Ёж" else if word = "true" then "false" else if word = "1" then "42"
  else if word = "1x" then "§" else word

theorem reports_of_shadowed_renamed :
    Renames reworded shadowed ∧
    (∃ halt? : Option Halt, (analyze shadowed).diagnostic? = halt?.map (·.diagnostic shadowed) ∧
      (analyze (shadowed.map (·.renamed reworded))).diagnostic? =
        halt?.map (·.diagnostic (shadowed.map (·.renamed reworded)))) ∧
    (analyze (shadowed.map (·.renamed reworded))).scope = (analyze shadowed).scope.renamed reworded := by
  have hwords : ∀ x ∈ shadowed, x.category = .unclassified → x.text ∈ ["x", "y", "true", "1", "1x"] := by decide +kernel
  have hwild {word : String} (hw : Wild shadowed word) : word ∈ ["x", "y", "true", "1", "1x"] := by
    obtain ⟨x, hx, hc, rfl⟩ := hw
    exact hwords x hx hc
  have hidentifier : ∀ word ∈ ["x", "y", "true", "1", "1x"], isIdentifier (reworded word) = isIdentifier word := by
    decide +kernel
  have hliteral : ∀ word ∈ ["x", "y", "true", "1", "1x"],
      DataType.ofLiteral? (reworded word) = DataType.ofLiteral? word := by decide +kernel
  have hinjective : ∀ v ∈ ["x", "y", "true", "1", "1x"], ∀ w ∈ ["x", "y", "true", "1", "1x"],
      reworded v = reworded w → v = w := by decide +kernel
  have hf : Renames reworded shadowed := ⟨fun hw => hidentifier _ (hwild hw), fun hw => hliteral _ (hwild hw),
    fun hv hw _ _ h => hinjective _ (hwild hv) _ (hwild hw) h⟩
  exact ⟨hf, reports_of_renamed hf⟩

end MiniPascal
