import MiniPascal.Proofs.Analysis.Step
import MiniPascal.Proofs.Grammar.Scoping
import MiniPascal.Proofs.Scope.Shows

/-!
# Reading the parts of a tree

Only the words of lexemes matter to an analysis (`run_congr`), so it can be followed from goals, a scope table and the
words still to be read (`Config`). `Leads c d` says that reading on from `c` is reading on from `d`. The words of a part
of a tree lead from the goals that await it to the goals behind, whatever these are, if the word behind the part does
not go on with it (`Ends`):

* `leads_expression`, `leads_condition`, `leads_assignment`: the parts of statements;
* `leads_variables`, `leads_lists`: lists of variables.
-/

namespace MiniPascal

/-! ## Lexemes and their words -/

section Words

variable {x y : Lexeme}

/-- A word as a lexeme at some place. -/
@[simps]
def Word.lexeme (w : Word) : Lexeme := ⟨w.text, w.category, .start⟩

theorem words_lexemes (ws : List Word) : (ws.map (·.lexeme)).map (·.word) = ws := by
  rw [List.map_map]
  exact List.map_id ws

/-- A goal does not see where a lexeme stands. -/
theorem onLexeme_congr (h : x.word = y.word) (scope : ScopeTable) (here : Place) (g : Goal) :
    g.onLexeme scope here x = g.onLexeme scope here y := by
  obtain ⟨text, category, p⟩ := x
  obtain ⟨_, _, q⟩ := y
  cases h
  cases g <;> rfl

theorem offer_congr (h : x.word = y.word) (scope : ScopeTable) (here : Place) (goals : List Goal) :
    offer scope here x goals = offer scope here y goals := by
  induction goals with
  | nil => rfl
  | cons g rest ih => rw [offer, offer, onLexeme_congr h, ih]

theorem step_congr (h : x.word = y.word) (s : State) : s.step x = s.step y := by
  have hc : x.category = y.category := congrArg Word.category h
  have ht : x.text = y.text := congrArg Word.text h
  simp only [State.step, State.stepComment, State.stepGoals, readInside, offer_congr h, hc, ht]

/-- A run depends on the words of its lexemes alone. -/
theorem run_congr {xs ys : List Lexeme} (h : xs.map (·.word) = ys.map (·.word)) (s : State) : s.run xs = s.run ys := by
  induction xs generalizing ys s with
  | nil =>
    obtain rfl := List.map_eq_nil_iff.mp h.symm
    rfl
  | cons x xs ih =>
    cases ys with
    | nil => cases h
    | cons y ys =>
      obtain ⟨hxy, h⟩ := List.cons.inj h
      rw [State.run, State.run, step_congr hxy]
      cases s.step y with
      | error halt => rfl
      | ok next => exact ih h next

end Words

/-! ## Reading on -/

/-- Goals, a scope table and the words that are still to be read, none of them in a comment. -/
structure Config where
  goals : List Goal
  scope : ScopeTable
  words : List Word

/-- The state behind the words, or the first breach, if so many lexemes have been read before. -/
def Config.result (c : Config) (read : Nat) : Except Halt State :=
  State.after ⟨c.goals, c.scope, read, .outside none⟩ (c.words.map (·.lexeme))

/-- Reading on from `c` is reading on from `d`. -/
def Leads (c d : Config) : Prop :=
  ∀ n, ∃ m, c.result n = d.result m

/-- Reading on leads to a statement for which there is no room. -/
def TooDeep (c : Config) : Prop :=
  ∀ n, ∃ i, c.result n = .error ⟨.nestingTooDeep, i⟩

variable {c d e : Config} {g : Goal} {rest new : List Goal} {t t' : ScopeTable} {w : Word} {ws : List Word}
  {frames frames' : List Frame} {expected : Option DataType}

theorem Leads.refl (c : Config) : Leads c c :=
  fun n => ⟨n, rfl⟩

theorem Leads.trans (h : Leads c d) (h' : Leads d e) : Leads c e := by
  intro n
  obtain ⟨m, hm⟩ := h n
  obtain ⟨k, hk⟩ := h' m
  exact ⟨k, hm.trans hk⟩

theorem Leads.tooDeep (h : Leads c d) (h' : TooDeep d) : TooDeep c := by
  intro n
  obtain ⟨m, hm⟩ := h n
  obtain ⟨i, hi⟩ := h' m
  exact ⟨i, hm.trans hi⟩

/-- One word outside comments is shown to the goals. -/
theorem result_cons (hw : w.category ≠ .comment) (goals : List Goal) (n : Nat) :
    Config.result ⟨goals, t, w :: ws⟩ n =
      match offer t ⟨n, none⟩ w.lexeme goals with
      | .take t' new => Config.result ⟨new, t', ws⟩ (n + 1)
      | .pass => .error ⟨.trailingAfterEnd, n⟩
      | .refuse halt => .error halt := by
  rw [Config.result, List.map_cons, State.after, State.step_of_word rfl (show w.lexeme.category ≠ .comment from hw)]
  cases offer t ⟨n, none⟩ w.lexeme goals <;> rfl

/-- The goal on top takes a word. -/
theorem leads_take (new : List Goal) (hw : w.category ≠ .comment)
    (h : ∀ n, g.onLexeme t ⟨n, none⟩ w.lexeme = .take t' new) :
    Leads ⟨g :: rest, t, w :: ws⟩ ⟨new ++ rest, t', ws⟩ := by
  intro n
  exact ⟨n + 1, by rw [result_cons hw, offer, h]⟩

/-- The goal on top lets a word pass. -/
theorem leads_pass (hw : w.category ≠ .comment) (h : ∀ n, g.onLexeme t ⟨n, none⟩ w.lexeme = .pass) :
    Leads ⟨g :: rest, t, w :: ws⟩ ⟨rest, t, w :: ws⟩ := by
  intro n
  exact ⟨n, by rw [result_cons hw, offer, h, ← result_cons hw]⟩

/-- The goal on top refuses a word for want of room. -/
theorem tooDeep_of_refuse (hw : w.category ≠ .comment)
    (h : ∀ n, g.onLexeme t ⟨n, none⟩ w.lexeme = .refuse ⟨.nestingTooDeep, n⟩) :
    TooDeep ⟨g :: rest, t, w :: ws⟩ := by
  intro n
  exact ⟨n, by rw [result_cons hw, offer, h]⟩

/-- Goals that treat a word alike lead on alike. -/
theorem leads_of_onLexeme {g' : Goal} (hw : w.category ≠ .comment)
    (h : ∀ n, g.onLexeme t ⟨n, none⟩ w.lexeme = g'.onLexeme t ⟨n, none⟩ w.lexeme) :
    Leads ⟨g :: rest, t, w :: ws⟩ ⟨g' :: rest, t, w :: ws⟩ := by
  intro n
  exact ⟨n, by rw [result_cons hw, result_cons hw, offer, offer, h]⟩

/-! ## Where a part ends -/

/-- More words follow, and the next one is of none of the given categories. -/
def Ends (stops : List Category) (ws : List Word) : Prop :=
  ∃ w rest, ws = w :: rest ∧ w.category ∉ stops

theorem ends_cons {stops : List Category} (h : w.category ∉ stops) : Ends stops (w :: ws) :=
  ⟨w, ws, rfl, h⟩

theorem Ends.mono {stops stops' : List Category} (h : Ends stops ws) (hs : stops' ⊆ stops) : Ends stops' ws := by
  obtain ⟨w, rest, rfl, hw⟩ := h
  exact ends_cons fun hmem => hw (hs hmem)

/-- What goes on with an expression. -/
def inExpression : List Category := [.comment, .addition, .multiplication]

/-- What goes on with a condition. -/
def inCondition : List Category := [.comment, .addition, .multiplication, .relation, .logicalOr, .logicalAnd]

/-- What goes on with a list of variables. -/
def inList : List Category := [.comment, .comma, .semicolon]

theorem Ends.ofCondition (h : Ends inCondition ws) : Ends inExpression ws :=
  h.mono (by decide)

/-! ## Expressions and conditions -/

/-- An operand that fits is taken. -/
theorem takeOperand_word {o : Operand} (ht : t.Shows frames) (h : o.fitsIn frames expected) (here : Place) :
    takeOperand t here o.word.lexeme expected = .take t [] := by
  cases o with
  | named name =>
    simp only [Operand.fitsIn, Option.any_eq_true] at h
    obtain ⟨type, htype, hfit⟩ := h
    have hfits : fits expected (some type) name := by
      cases expected with
      | none => rfl
      | some want => simpa [fits, eq_comm] using hfit
    simp [takeOperand, Operand.word, ht.find?, htype, hfits]
  | literal text =>
    simp only [Operand.fitsIn, Bool.and_eq_true] at h
    obtain ⟨hl, hfit⟩ := h
    have hfits : fits expected none text := by
      cases expected with
      | none => rfl
      | some want => simpa [fits] using hfit
    simp [takeOperand, Operand.word, ht.find?, ht.typeIn?_literal hl, hl, hfits]

theorem category_operand (o : Operand) : o.word.category = .unclassified := by
  cases o <;> rfl

theorem leads_term {tm : Term} (ht : t.Shows frames) (h : tm.operand.fitsIn frames expected) :
    Leads ⟨.term expected :: rest, t, tm.words ++ ws⟩ ⟨rest, t, ws⟩ := by
  obtain ⟨sign?, operand⟩ := tm
  have hc := category_operand operand
  have hw : operand.word.category ≠ .comment := by simp [hc]
  cases sign? with
  | none =>
    have hg : ∀ n, (Goal.term expected).onLexeme t ⟨n, none⟩ operand.word.lexeme = .take t [] := by
      intro n
      rw [Goal.onLexeme, if_neg (by simp [hc])]
      exact takeOperand_word ht h ⟨n, none⟩
    exact leads_take [] hw hg
  | some sign =>
    have hsign : Leads ⟨.term expected :: rest, t, sign.word :: operand.word :: ws⟩
        ⟨.operand expected :: rest, t, operand.word :: ws⟩ :=
      leads_take [.operand expected] (by cases sign <;> simp [Sign.word]) fun n => by cases sign <;> rfl
    exact hsign.trans (leads_take [] hw fun n => takeOperand_word ht h ⟨n, none⟩)

theorem leads_moreTerms {more : List (Joint × Term)} (ht : t.Shows frames)
    (h : more.all (·.2.operand.fitsIn frames expected)) (he : Ends inExpression ws) :
    Leads ⟨.moreTerms expected :: rest, t, (more.flatMap fun m => m.1.word :: m.2.words) ++ ws⟩ ⟨rest, t, ws⟩ := by
  induction more with
  | nil =>
    obtain ⟨w, ws, rfl, hw⟩ := he
    simp only [inExpression, List.mem_cons, List.not_mem_nil, or_false, not_or] at hw
    exact leads_pass hw.1 fun n => if_neg (by simp [hw])
  | cons m more ih =>
    obtain ⟨joint, tm⟩ := m
    simp only [List.all_cons, Bool.and_eq_true] at h
    simp only [List.flatMap_cons, List.cons_append, List.append_assoc]
    have hjoint : ∀ {ws}, Leads ⟨.moreTerms expected :: rest, t, joint.word :: ws⟩
        ⟨.term expected :: .moreTerms expected :: rest, t, ws⟩ :=
      leads_take (expression expected) (by cases joint <;> simp [Joint.word]) fun n => by cases joint <;> rfl
    exact hjoint.trans ((leads_term ht h.1).trans (ih h.2))

/-- The words of an expression are read. -/
theorem leads_expression {e : Expression} (ht : t.Shows frames) (h : e.fitsIn frames expected)
    (he : Ends inExpression ws) : Leads ⟨expression expected ++ rest, t, e.words ++ ws⟩ ⟨rest, t, ws⟩ := by
  rw [Expression.fitsIn, Bool.and_eq_true] at h
  rw [Expression.words, List.append_assoc]
  exact (leads_term ht h.1).trans (leads_moreTerms ht h.2 he)

/-- Where a connective or the end of a condition stands, an expression ends. -/
theorem ends_connectives (more : List (Connective × Expression)) (he : Ends inCondition ws) :
    Ends inExpression ((more.flatMap fun m => m.1.word :: m.2.words) ++ ws) := by
  cases more with
  | nil => exact he.ofCondition
  | cons m more =>
    obtain ⟨connective, e⟩ := m
    exact ends_cons (by cases connective <;> simp [Connective.word, inExpression])

theorem leads_moreExpressions {more : List (Connective × Expression)} (ht : t.Shows frames)
    (h : more.all (·.2.fitsIn frames none)) (he : Ends inCondition ws) :
    Leads ⟨.moreExpressions :: rest, t, (more.flatMap fun m => m.1.word :: m.2.words) ++ ws⟩ ⟨rest, t, ws⟩ := by
  induction more with
  | nil =>
    obtain ⟨w, ws, rfl, hw⟩ := he
    simp only [inCondition, List.mem_cons, List.not_mem_nil, or_false, not_or] at hw
    exact leads_pass hw.1 fun n => if_neg (by simp [hw])
  | cons m more ih =>
    obtain ⟨connective, e⟩ := m
    simp only [List.all_cons, Bool.and_eq_true] at h
    simp only [List.flatMap_cons, List.cons_append, List.append_assoc]
    have hconnective : ∀ {ws}, Leads ⟨.moreExpressions :: rest, t, connective.word :: ws⟩
        ⟨expression none ++ .moreExpressions :: rest, t, ws⟩ :=
      leads_take comparison (by cases connective <;> simp [Connective.word]) fun n => by cases connective <;> rfl
    exact hconnective.trans ((leads_expression ht h.1 (ends_connectives more he)).trans (ih h.2))

/-- The words of a condition are read. -/
theorem leads_condition {c : Condition} (ht : t.Shows frames) (h : c.fitsIn frames) (he : Ends inCondition ws) :
    Leads ⟨comparison ++ rest, t, c.words ++ ws⟩ ⟨rest, t, ws⟩ := by
  rw [Condition.fitsIn, Bool.and_eq_true] at h
  rw [Condition.words, List.append_assoc]
  exact (leads_expression ht h.1 (ends_connectives c.more he)).trans (leads_moreExpressions ht h.2 he)

/-- A goal that takes the target of an assignment goes on with the assignment. -/
theorem leads_assignment {a : Assignment} (new : List Goal) (ht : t.Shows frames) (h : a.fitsIn frames) (he : Ends inExpression ws)
    (hg : ∀ n, g.onLexeme t ⟨n, none⟩ (nameWord a.target).lexeme =
      (assignTo t ⟨n, none⟩ (nameWord a.target).lexeme).before new) :
    Leads ⟨g :: rest, t, a.words ++ ws⟩ ⟨new ++ rest, t, ws⟩ := by
  simp only [Assignment.fitsIn, Option.any_eq_true] at h
  obtain ⟨type, htype, hvalue⟩ := h
  have htarget : ∀ {ws}, Leads ⟨g :: rest, t, nameWord a.target :: ws⟩ ⟨.value type :: (new ++ rest), t, ws⟩ := by
    refine leads_take (.value type :: new) (by simp) fun n => ?_
    rw [hg]
    simp [assignTo, ht.find?, htype]
  have hsign : ∀ {ws}, Leads ⟨.value type :: (new ++ rest), t, ⟨.becomes, a.becomes⟩ :: ws⟩
      ⟨expression (some type) ++ (new ++ rest), t, ws⟩ :=
    leads_take (expression (some type)) (by simp) fun n => rfl
  exact htarget.trans (hsign.trans (leads_expression ht hvalue he))

/-! ## Lists of variables -/

/-- An identifier that the frame on top does not have is declared. -/
theorem leads_name {type : DataType} {name : String} (ht : t.Shows frames)
    (h : declareIn? type frames name = some frames') :
    ∃ t', t'.Shows frames' ∧ Leads ⟨.variableName type :: rest, t, nameWord name :: ws⟩ ⟨rest, t', ws⟩ := by
  cases frames with
  | nil => cases h
  | cons f rest =>
    simp only [declareIn?, Option.ite_none_right_eq_some, Bool.and_eq_true, Option.isNone_iff_eq_none,
      Option.some.injEq] at h
    obtain ⟨⟨hn, hfree⟩, rfl⟩ := h
    have hd := ht.declareName (x := (nameWord name).lexeme) hn rfl type
    rw [if_neg (by simp [hfree])] at hd
    obtain ⟨u, hu, hd⟩ := hd
    exact ⟨u, hu, leads_take [] (by simp) fun n => hd ⟨n, none⟩⟩

theorem leads_moreNames {type : DataType} {more : List String} (semicolon : Bool) (ht : t.Shows frames)
    (h : more.foldlM (declareIn? type) frames = some frames') (he : Ends inList ws) :
    ∃ t', t'.Shows frames' ∧
      Leads ⟨.moreVariables type :: rest, t, (more.flatMap fun name => [commaWord, nameWord name]) ++
        ((if semicolon then [semicolonWord] else []) ++ ws)⟩ ⟨rest, t', ws⟩ := by
  induction more generalizing t frames with
  | nil =>
    obtain rfl : frames = frames' := by simpa using h
    refine ⟨t, ht, ?_⟩
    cases semicolon with
    | true => exact leads_take [] (by simp) fun n => rfl
    | false =>
      obtain ⟨w, ws, rfl, hw⟩ := he
      simp only [inList, List.mem_cons, List.not_mem_nil, or_false, not_or] at hw
      refine leads_pass hw.1 fun n => ?_
      simp [hw]
  | cons name more ih =>
    rw [List.foldlM_cons, Option.bind_eq_bind, Option.bind_eq_some_iff] at h
    obtain ⟨frames₁, hname, hmore⟩ := h
    simp only [List.flatMap_cons, List.cons_append, List.nil_append]
    have hcomma : ∀ {ws}, Leads ⟨.moreVariables type :: rest, t, commaWord :: ws⟩
        ⟨.variableName type :: .moreVariables type :: rest, t, ws⟩ :=
      leads_take [.variableName type, .moreVariables type] (by simp) fun n => rfl
    obtain ⟨t₁, ht₁, hleads⟩ := leads_name ht hname
    obtain ⟨t', ht', hrest⟩ := ih ht₁ hmore
    exact ⟨t', ht', hcomma.trans (hleads.trans hrest)⟩

/-- The words of a list of variables are read by a goal that takes the word `var`. -/
theorem leads_variables {l : VariableList} (ht : t.Shows frames) (h : l.declare? frames = some frames')
    (he : Ends inList ws) (hg : ∀ n, g.onLexeme t ⟨n, none⟩ (Word.lexeme ⟨.varWord, "var"⟩) = .take t [.typeName, g]) :
    ∃ t', t'.Shows frames' ∧ Leads ⟨g :: rest, t, l.words ++ ws⟩ ⟨g :: rest, t', ws⟩ := by
  rw [VariableList.declare?, List.foldlM_cons, Option.bind_eq_bind, Option.bind_eq_some_iff] at h
  obtain ⟨frames₁, hfirst, hmore⟩ := h
  have hvar : ∀ {ws}, Leads ⟨g :: rest, t, ⟨.varWord, "var"⟩ :: ws⟩ ⟨.typeName :: g :: rest, t, ws⟩ :=
    leads_take [.typeName, g] (by simp) hg
  have htype : ∀ {ws}, Leads ⟨.typeName :: g :: rest, t, ⟨.typeWord, l.type.name⟩ :: ws⟩
      ⟨.variableName l.type :: .moreVariables l.type :: g :: rest, t, ws⟩ := by
    refine leads_take [.variableName l.type, .moreVariables l.type] (by simp) fun n => ?_
    simp [DataType.ofName?_name]
  obtain ⟨t₁, ht₁, hleads⟩ := leads_name ht hfirst
  obtain ⟨t', ht', hrest⟩ := leads_moreNames l.semicolon ht₁ hmore he
  refine ⟨t', ht', ?_⟩
  simp only [VariableList.words, List.cons_append, List.append_assoc]
  exact hvar.trans (htype.trans (hleads.trans hrest))

/-- The words of lists of variables are read by a goal that takes the word `var` wherever the same brackets are open. -/
theorem leads_lists {lists : List VariableList} (ht : t.Shows frames) (h : declareAll? lists frames = some frames')
    (he : Ends inList ws)
    (hg : ∀ {t : ScopeTable} {frames₁ : List Frame}, t.Shows frames₁ → shape frames₁ = shape frames → ∀ n,
      g.onLexeme t ⟨n, none⟩ (Word.lexeme ⟨.varWord, "var"⟩) = .take t [.typeName, g]) :
    ∃ t', t'.Shows frames' ∧ Leads ⟨g :: rest, t, lists.flatMap (·.words) ++ ws⟩ ⟨g :: rest, t', ws⟩ := by
  induction lists generalizing t frames with
  | nil =>
    obtain rfl : frames = frames' := by simpa [declareAll?] using h
    exact ⟨t, ht, Leads.refl _⟩
  | cons l lists ih =>
    rw [declareAll?, List.foldlM_cons, Option.bind_eq_bind, Option.bind_eq_some_iff] at h
    obtain ⟨frames₁, hl, hlists⟩ := h
    have hends : Ends inList (lists.flatMap (·.words) ++ ws) := by
      cases lists with
      | nil => exact he
      | cons l' _ => exact ends_cons (show Category.varWord ∉ inList by decide)
    have hshape := shape_declare? hl
    obtain ⟨t₁, ht₁, hfirst⟩ := leads_variables ht hl hends (hg ht rfl)
    obtain ⟨t', ht', hrest⟩ := ih ht₁ hlists fun hs he => hg hs (he.trans hshape)
    refine ⟨t', ht', ?_⟩
    rw [List.flatMap_cons, List.append_assoc]
    exact hfirst.trans hrest

end MiniPascal
