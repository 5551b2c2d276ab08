import MiniPascal.Proofs.Descent.Leads

/-!
# The parts of statements

Each rule for a part of a statement leads from the goals of the part to the goals below them: it is never at fault,
takes a lexeme at least, and ends before a word with the goals that the analysis has there (`Past`).

- `leads_advance`: what the goal on top takes is passed, with the comments behind it.
- `leads_more`: parts that are repeated behind separators.
- `leads_expect`, `leads_comparison`, `leads_assignment`, `leads_readTarget`: the parts of statements.
- `leads_variableLists`: declarations, which leave the shape of the open blocks as it is.
-/

namespace MiniPascal.Descent

variable {program : List Lexeme} {answer : Option Halt × ScopeTable} {stack rest new : List Goal} {g : Goal}
  {p q r : Spot} {expected : Option DataType} {type : DataType} {scope : ScopeTable}

/-- A spot behind another one, before a word, where a stack of goals gives the answer and the same blocks are open. -/
structure Past (program : List Lexeme) (answer : Option Halt × ScopeTable) (stack : List Goal) (p q : Spot) : Prop
    extends Settled program answer stack q where
  moved : p.cursor < q.cursor
  shape_eq : shape q.scope.frames = shape p.scope.frames

theorem Past.trans (hq : Past program answer stack p q) (hr : Past program answer rest q r) :
    Past program answer rest p r :=
  ⟨hr.toSettled, Nat.lt_trans hq.moved hr.moved, hr.shape_eq.trans hq.shape_eq⟩

theorem Past.of_le (hr : Past program answer rest q r) (hle : p.cursor ≤ q.cursor) (hscope : q.scope = p.scope) :
    Past program answer rest p r :=
  ⟨hr.toSettled, Nat.lt_of_le_of_lt hle hr.moved, hscope ▸ hr.shape_eq⟩

/-- A lexeme is passed, with the comments behind it. -/
theorem leads_advanceTo (hlt : p.cursor < program.length) (h : At program answer stack ⟨p.cursor + 1, p.scope⟩)
    (hfree : noRoom stack) : Leads program answer advance p fun _ q => Past program answer stack p q :=
  (leads_bump hlt (leads_skipComments h hfree)).mono fun _ _ _ hq => ⟨hq.2.1, hq.1, by rw [hq.2.2]⟩

/-- The lexeme that the goal on top takes is passed, with the comments behind it. -/
theorem leads_advance (new : List Goal) (h : Settled program answer (g :: rest) p) (hg : ordinary g)
    (hr : g.onLexeme p.scope (place program p) (lexemeAt program p.cursor) = .take p.scope new)
    (hfree : noRoom (new ++ rest)) :
    Leads program answer advance p fun _ q => Past program answer (new ++ rest) p q := by
  obtain ⟨hlt, hat⟩ := h.take hg new hr h.proper
  exact leads_advanceTo hlt hat hfree

/-- A rule behind the comments at a spot. -/
theorem leads_behindComments {rule : Rule Unit} (h : At program answer stack p) (hfree : noRoom stack)
    (hrule : ∀ q, Settled program answer stack q →
      Leads program answer rule q fun _ r => Past program answer rest q r) :
    Leads program answer (skipComments >>= fun _ => rule) p fun _ q => Past program answer rest p q :=
  (leads_skipComments h hfree).bind fun _ q hle ⟨hq, hscope⟩ =>
    (hrule q hq).mono fun _ _ _ hr => hr.of_le hle hscope

/-- Parts of one kind behind separators and comments. -/
theorem leads_more {categories : List Category} {part : Rule Unit} (hnone : Category.unclassified ∉ categories)
    (hg : ordinary g) (hgoal : ∀ (t : ScopeTable) (here : Place) (x : Lexeme),
      g.onLexeme t here x = if x.category ∈ categories then .take t (new ++ [g]) else .pass)
    (hfree : noRoom (new ++ g :: rest))
    (hpart : ∀ q, Settled program answer (new ++ g :: rest) q →
      Leads program answer part q fun _ r => Past program answer (g :: rest) q r)
    (h : Past program answer (g :: rest) p q) :
    Leads program answer (chain categories (skipComments >>= fun _ => part)) q fun _ r =>
      Past program answer rest p r := by
  refine (leads_chain (I := Past program answer (g :: rest) p) hnone (fun r hr hin => ?_) (fun r hr => hr.inRange)
    h).mono ?_
  · obtain ⟨hlt, hat⟩ := hr.take hg _ ((hgoal _ _ _).trans (if_pos hin)) hr.proper
    rw [List.append_assoc, List.singleton_append] at hat
    refine ⟨hlt, (leads_behindComments hat hfree hpart).mono fun _ s _ hs => hr.trans ?_⟩
    exact hs.of_le (Nat.le_succ _) rfl
  · rintro _ r - ⟨hr, hout⟩
    exact ⟨hr.toSettled.pass hg ((hgoal _ _ _).trans (if_neg hout)), hr.moved, hr.shape_eq⟩

/-! ## Words -/

/-- A word is taken where the goal on top takes words of its category only. -/
theorem leads_keyword {category : Category} {kind : DiagnosticKind} (h : Settled program answer (g :: rest) p)
    (hg : ordinary g) (hc : category ≠ .unclassified)
    (hgoal : ∀ here x, g.onLexeme p.scope here x =
      if x.category = category then .take scope new else here.refuse kind) (hs : Proper scope) :
    Leads program answer (keyword category kind) p fun _ q =>
      q = ⟨p.cursor + 1, p.scope⟩ ∧ At program answer (new ++ rest) ⟨p.cursor + 1, scope⟩ := by
  refine .bind_apply (peekIn_apply (by simpa using hc.symm)) (leads_demand (fun hx => ?_) fun hx => ?_)
  · exact h.refuse hg ((hgoal _ _).trans (if_neg (by simpa using hx)))
  · obtain ⟨hlt, hat⟩ := h.take hg new ((hgoal _ _).trans (if_pos (by simpa using hx))) hs
    exact .of_apply (bump_apply hlt) (Nat.le_succ _) ⟨rfl, hat⟩

theorem leads_expect {category : Category} {text : String} (hc : category ≠ .unclassified)
    (h : At program answer (.word category text :: rest) p) (hfree : noRoom rest) :
    Leads program answer (expect category text) p fun _ q => Past program answer rest p q := by
  have hg : ordinary (.word category text) := decide_eq_true hc
  refine (leads_skipComments h rfl).bind fun _ q hle ⟨hq, hscope⟩ => leads_peek ?_
  refine leads_demand (fun hx => hq.refuse hg ?_) fun hx => ?_
  · simp [hx]
  · refine (leads_advance [] hq hg ?_ hfree).mono fun _ r _ hr => hr.of_le hle hscope
    simp [hx]

/-! ## Operands -/

/-- An operand is read where the goal on top takes operands only. -/
theorem leads_operand (h : Settled program answer (g :: rest) p) (hg : ordinary g)
    (htake : g.onLexeme p.scope (place program p) (lexemeAt program p.cursor) =
      takeOperand p.scope (place program p) (lexemeAt program p.cursor) expected) (hfree : noRoom rest) :
    Leads program answer (operand expected) p fun _ q => Past program answer rest p q := by
  refine leads_peek (leads_atEnd ?_)
  refine leads_demand (fun hword => h.refuse hg ?_) fun hword => ?_
  · rw [htake]
    by_cases hc : (lexemeAt program p.cursor).category = .unclassified
    case neg =>
      rw [takeOperand, if_pos hc]
      rfl
    · have hend : program[p.cursor]? = none := List.getElem?_eq_none (by simpa [hc] using hword)
      exact takeOperand_empty h.proper _ _ hc (lexemeAt_of_none hend).2
  have hc : (lexemeAt program p.cursor).category = .unclassified := by
    rw [Bool.and_eq_true, decide_eq_true_eq] at hword
    exact hword.2
  refine .bind_apply (find_apply h.proper.sound _) ?_
  refine leads_demand (fun hknown => h.refuse hg ?_) fun hknown => ?_
  · rw [htake, takeOperand, if_neg (not_not_intro hc), hknown]
    cases isIdentifier (lexemeAt program p.cursor).text <;> rfl
  refine leads_demand (fun hfits => h.refuse hg ?_) fun hfits => ?_
  · rw [htake, takeOperand, if_neg (not_not_intro hc), hknown, hfits]
    rfl
  refine leads_advance [] h hg ?_ hfree
  rw [htake, takeOperand, if_neg (not_not_intro hc), hknown, hfits]
  rfl

/-- Behind a sign an operand without one is awaited. -/
theorem leads_sign (h : Settled program answer (.term expected :: rest) p) :
    Leads program answer (once [.unary, .addition] skipComments) p
      (GoesOn (fun q => Settled program answer (.operand expected :: rest) q ∧ q.scope = p.scope)
        (fun q => q = p ∧ (lexemeAt program p.cursor).category ∉ [.unary, .addition]) p) := by
  refine leads_once (by decide) (fun hin => ?_) fun hout => ⟨rfl, hout⟩
  obtain ⟨hlt, hat⟩ := h.take rfl [.operand expected] (by rw [Goal.onLexeme, if_pos (by simpa using hin)]) h.proper
  exact ⟨hlt, leads_skipComments hat rfl⟩

theorem leads_term (h : At program answer (.term expected :: rest) p) (hfree : noRoom rest) :
    Leads program answer (term expected) p fun _ q => Past program answer rest p q := by
  refine (leads_skipComments h rfl).bind fun _ q hle ⟨hq, hscope⟩ => ?_
  refine (leads_sign hq).bind fun again r hle' hr => ?_
  cases again with
  | true =>
    obtain ⟨hmoved, hr, hscope'⟩ := hr
    exact (leads_operand hr rfl rfl hfree).mono fun _ s _ hs =>
      hs.of_le (Nat.le_trans hle hle') (hscope'.trans hscope)
  | false =>
    obtain ⟨rfl, hout⟩ := hr
    refine (leads_operand hq rfl ?_ hfree).mono fun _ s _ hs => hs.of_le hle hscope
    rw [Goal.onLexeme, if_neg (by simpa using hout)]

theorem leads_expression (h : At program answer (.term expected :: .moreTerms expected :: rest) p) :
    Leads program answer (expression expected) p fun _ q => Past program answer rest p q := by
  have hgoal (t : ScopeTable) (here : Place) (x : Lexeme) : (Goal.moreTerms expected).onLexeme t here x =
      if x.category ∈ [.addition, .multiplication] then .take t ([.term expected] ++ [.moreTerms expected])
      else .pass := by
    simp
  exact (leads_term h rfl).bind fun _ q _ hq => leads_more (by decide) rfl hgoal rfl (fun r hr =>
    leads_term hr.toAt rfl) hq

theorem leads_comparison (h : At program answer (.term none :: .moreTerms none :: .moreExpressions :: rest) p) :
    Leads program answer comparison p fun _ q => Past program answer rest p q := by
  have hgoal (t : ScopeTable) (here : Place) (x : Lexeme) : Goal.moreExpressions.onLexeme t here x =
      if x.category ∈ [.relation, .logicalOr, .logicalAnd] then
        .take t ([.term none, .moreTerms none] ++ [.moreExpressions])
      else .pass := by
    simp
  exact (leads_expression h).bind fun _ q _ hq => leads_more (by decide) rfl hgoal rfl (fun r hr =>
    leads_expression hr.toAt) hq

/-! ## Variables -/

/-- The rule finds the variable that the analysis finds. -/
theorem resolve_apply (h : p.scope.Sound) :
    resolve program p = .done ((lexemeAt program p.cursor).resolve? p.scope) p := by
  rw [resolve, Rule.bind_apply]
  dsimp only [peek]
  rw [Lexeme.resolve?]
  split
  · exact find_apply h _
  · rfl

theorem leads_assignment (h : Settled program answer (.target :: rest) p) :
    Leads program answer assignment p fun _ q => Past program answer rest p q := by
  refine .bind_apply (resolve_apply h.proper.sound) ?_
  cases htype : (lexemeAt program p.cursor).resolve? p.scope with
  | none =>
    refine leads_fail (h.refuse rfl ?_)
    simp [assignTo, htype]
  | some type =>
    refine (leads_advance [.value type] h rfl ?_ rfl).bind fun _ q _ hq => ?_
    · simp [assignTo, htype]
    refine (leads_keyword hq.toSettled rfl (by decide) (fun _ _ => rfl) hq.proper).bind fun _ r hle hr => ?_
    obtain ⟨rfl, hat⟩ := hr
    refine (leads_behindComments hat rfl fun r hr => leads_expression hr.toAt).mono fun _ s _ hs => ?_
    exact hq.trans (hs.of_le hle rfl)

theorem leads_readTarget (h : Settled program answer (.readTarget :: rest) p) (hfree : noRoom rest) :
    Leads program answer readTarget p fun _ q => Past program answer rest p q := by
  refine .bind_apply (resolve_apply h.proper.sound) (leads_demand (fun hx => h.refuse rfl ?_) fun hx => ?_)
  · simp [hx]
  · refine leads_advance [] h rfl ?_ hfree
    simp [hx]

/-! ## Declarations -/

theorem leads_typeName (h : Settled program answer (.typeName :: rest) p) :
    Leads program answer typeName p fun type q =>
      Past program answer (.variableName type :: .moreVariables type :: rest) p q := by
  refine leads_peek ?_
  cases htype : (lexemeAt program p.cursor).namedType? with
  | none =>
    refine leads_fail (h.refuse rfl ?_)
    simp [htype]
  | some type =>
    refine (leads_advance [.variableName type, .moreVariables type] h rfl ?_ rfl).bind fun _ q _ hq => .pure hq
    simp [htype]

/-- An identifier can be declared, unless the current block has it already. -/
theorem declareName_identifier {t : ScopeTable} {x : Lexeme} (here : Place) (hn : isIdentifier x.text = true)
    (hc : x.category = .unclassified) :
    declareName t here x type =
      match t.current? with
      | none => here.refuse .globalDeclaration
      | some block =>
        match t.declare block x.text type with
        | .error _ => here.refuse .alreadyDeclared
        | .ok declared => .take declared [] :=
  (if_neg (by rw [hn]; decide)).trans (if_neg (not_not_intro hc))

/-- A variable is declared as the analysis declares it; the shape of the open blocks stays as it is. -/
theorem leads_variableName (h : Settled program answer (.variableName type :: rest) p) (hfree : noRoom rest) :
    Leads program answer (variableName type) p fun _ q => Past program answer rest p q := by
  refine leads_peek ?_
  refine leads_demand (fun hname => h.refuse rfl ?_) fun hname => ?_
  · simp [declareName, hname]
  refine leads_demand (fun hc => h.refuse rfl ?_) fun hc => ?_
  · simp [declareName, hname, of_decide_eq_false hc]
  have hgoal : (Goal.variableName type).onLexeme p.scope (place program p) (lexemeAt program p.cursor) = _ :=
    declareName_identifier _ hname (of_decide_eq_true hc)
  refine leads_scope ?_
  cases hcurrent : p.scope.current? with
  | none =>
    refine leads_fail (h.refuse rfl (hgoal.trans ?_))
    rw [hcurrent]
    rfl
  | some block =>
    have happly : declare block (lexemeAt program p.cursor).text type program p = _ :=
      declare_apply (h.proper.sound.current hcurrent).2 _ _
    rw [hcurrent] at hgoal
    dsimp only at hgoal
    cases hdeclared : p.scope.declare block (lexemeAt program p.cursor).text type with
    | error e =>
      rw [hdeclared] at happly hgoal
      exact .bind (P := fun _ _ => False) (.of_halt happly (h.refuse rfl hgoal)) fun _ _ _ hnever => hnever.elim
    | ok u =>
      rw [hdeclared] at happly hgoal
      obtain ⟨hu, hshape⟩ := h.proper.declare hcurrent hname hdeclared
      obtain ⟨hlt, hat⟩ := h.take rfl _ hgoal hu
      refine .bind_done happly (Nat.le_refl _) ?_
      refine (leads_bump (p := ⟨p.cursor, u⟩) hlt (leads_skipComments hat hfree)).mono fun _ q _ hq => ?_
      exact ⟨hq.2.1, hq.1, by rw [hq.2.2, hshape]⟩

/-- More variables are declared behind commas. -/
theorem leads_moreVariables (h : Past program answer (.moreVariables type :: rest) p q) :
    Leads program answer (chain [.comma] (skipComments >>= fun _ => variableName type)) q fun _ r =>
      Past program answer (.moreVariables type :: rest) p r ∧ (lexemeAt program r.cursor).category ∉ [.comma] := by
  refine leads_chain (I := Past program answer (.moreVariables type :: rest) p) (by decide) (fun r hr hin => ?_)
    (fun r hr => hr.inRange) h
  obtain ⟨hlt, hat⟩ := hr.take rfl [.variableName type, .moreVariables type] (by
    rw [Goal.onLexeme, if_pos (by simpa using hin)]) hr.proper
  refine ⟨hlt, (leads_behindComments hat rfl fun s hs => leads_variableName hs rfl).mono fun _ s _ hs => hr.trans ?_⟩
  exact hs.of_le (Nat.le_succ _) rfl

/-- A semicolon may end a list of variables. -/
theorem leads_listEnd (hfree : noRoom stack) (h : Settled program answer (.moreVariables type :: stack) p)
    (hcomma : (lexemeAt program p.cursor).category ∉ [.comma]) :
    Leads program answer (once [.semicolon] skipComments) p fun _ q =>
      Settled program answer stack q ∧ q.scope = p.scope := by
  have hend : Leads program answer (once [.semicolon] skipComments) p
      (GoesOn (fun q => Settled program answer stack q ∧ q.scope = p.scope)
        (fun q => Settled program answer stack q ∧ q.scope = p.scope) p) := by
    refine leads_once (by decide) (fun hin => ?_) fun hout => ⟨h.pass rfl ?_, rfl⟩
    · obtain ⟨hlt, hat⟩ := h.take rfl [] (by
        rw [Goal.onLexeme, if_neg (by simpa using hcomma), if_pos (by simpa using hin)]) h.proper
      exact ⟨hlt, leads_skipComments hat hfree⟩
    · rw [Goal.onLexeme, if_neg (by simpa using hcomma), if_neg (by simpa using hout)]
  refine hend.mono fun again q _ hq => ?_
  cases again with
  | true => exact hq.2
  | false => exact hq

/-- Lists of variables are read as long as the stack takes the word before them. -/
theorem leads_variableLists (hfree : noRoom stack)
    (hvar : ∀ q, Settled program answer stack q → shape q.scope.frames = shape p.scope.frames →
      (lexemeAt program q.cursor).category = .varWord →
        q.cursor < program.length ∧ At program answer (.typeName :: stack) ⟨q.cursor + 1, q.scope⟩)
    (h : Settled program answer stack p) :
    Leads program answer variableLists p fun _ q =>
      (Settled program answer stack q ∧ shape q.scope.frames = shape p.scope.frames) ∧
        (lexemeAt program q.cursor).category ≠ .varWord := by
  refine (leads_chain (I := fun q => Settled program answer stack q ∧ shape q.scope.frames = shape p.scope.frames)
    (by decide) (fun q hq hin => ?_) (fun q hq => hq.1.inRange) ⟨h, rfl⟩).mono fun _ q _ hq => ?_
  case refine_2 => exact ⟨hq.1, by simpa using hq.2⟩
  obtain ⟨hlt, hat⟩ := hvar q hq.1 hq.2 (by simpa using hin)
  refine ⟨hlt, (leads_skipComments hat rfl).bind fun _ r hle hr => ?_⟩
  refine (leads_typeName hr.1).bind fun type s _ hs => ?_
  refine (leads_variableName hs.toSettled rfl).bind fun _ u _ hu => ?_
  refine (leads_moreVariables hu).bind fun _ v _ ⟨hv, hcomma⟩ => ?_
  refine (leads_listEnd hfree hv.toSettled hcomma).bind fun _ w _ ⟨hw, hscope⟩ => .pure ⟨hw, ?_⟩
  rw [hscope, hv.shape_eq, hs.shape_eq, hr.2]
  exact hq.2

end MiniPascal.Descent
