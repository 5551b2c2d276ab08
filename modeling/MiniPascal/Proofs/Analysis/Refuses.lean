import MiniPascal.Proofs.Analysis.Words
import MiniPascal.Scope.Lemmas

/-!
# What a goal refuses

All ways in which a goal can refuse a lexeme, or complain at the end of the input, with the kind of the breach.

* `NoOperand`, `Breaks`: what is no operand, and what begins no statement.
* `Goal.Refuses`: what a goal refuses (`refuses_of_onLexeme`); `Goal.Lacks`: what it lacks at the end (`lacks_of_onEnd`).
* `Refusal`: a lexeme is refused for what it is, and a name for being unknown only where it is unknown
  (`refusal_of_onLexeme`).
* `refused_of_breach`: the goal that refuses the lexeme of a breach.
-/

namespace MiniPascal

variable {t : ScopeTable} {here : Place} {x : Lexeme} {g : Goal} {halt : Halt} {kind : DiagnosticKind}
  {context : Context} {type : DataType} {expected : Option DataType}

/-! ## Names, operands and statements -/

/-- A lexeme cannot be the name of a new variable. -/
inductive NoName (t : ScopeTable) (x : Lexeme) : DiagnosticKind → Prop
  | bad (hn : isIdentifier x.text = false) : NoName t x .badVariableName
  | reserved (hx : x.category ≠ .unclassified) : NoName t x .reservedVariableName
  | global (hc : t.current? = none) : NoName t x .globalDeclaration
  | again {block : Nat} (hc : t.current? = some block) (hd : (t.lookup? block x.text).isSome) :
      NoName t x .alreadyDeclared

/-- A lexeme cannot be an operand. -/
inductive NoOperand (t : ScopeTable) (x : Lexeme) (expected : Option DataType) : DiagnosticKind → Prop
  | category (hx : x.category ≠ .unclassified) : NoOperand t x expected (.awaitedWord "variable or value")
  | misfit (hf : fits expected (t.find? x.text) x.text = false) : NoOperand t x expected .incorrectValueType
  | unknown (hnone : t.find? x.text = none) (hn : isIdentifier x.text) : NoOperand t x expected .undefinedVariable
  | word (hn : isIdentifier x.text = false) : NoOperand t x expected (.awaitedWord "variable or value")

/-- A statement cannot begin with a lexeme. -/
inductive Breaks (t : ScopeTable) (x : Lexeme) (context : Context) : DiagnosticKind → Prop
  | tooDeep (hfull : t.hasRoom context.depth = false) : Breaks t x context .nestingTooDeep
  | unclosed (hx : x.category = .endWord) (hin : t.inCompound = true) : Breaks t x context (.awaitedName "]")
  | unopened (hx : x.category = .compoundClose) (hin : t.inCompound = false) :
      Breaks t x context .unexpectedCompoundEnd
  | target (hnone : x.resolve? t = none) : Breaks t x context .undefinedAssignmentTarget
  | conditional (hx : x.category = .conditional) : Breaks t x context .unexpectedConditional
  | word : Breaks t x context .unexpectedWord

theorem noName_of_declareName (h : declareName t here x type = .refuse halt) :
    halt.index = here.index ∧ NoName t x halt.kind := by
  unfold declareName at h
  split at h
  · rename_i hn
    cases h
    exact ⟨rfl, .bad (by simpa using hn)⟩
  split at h
  · rename_i hx
    cases h
    exact ⟨rfl, .reserved hx⟩
  split at h
  · rename_i hc
    cases h
    exact ⟨rfl, .global hc⟩
  · rename_i hc
    split at h <;> cases h
    rename_i hd
    exact ⟨rfl, .again hc (ScopeTable.declare_eq_error_iff.mp hd).1⟩

theorem unresolved_of_assignTo (h : assignTo t here x = .refuse halt) :
    halt = here.halt .undefinedAssignmentTarget ∧ x.resolve? t = none := by
  unfold assignTo at h
  split at h <;> cases h
  exact ⟨rfl, ‹_›⟩

theorem noOperand_of_takeOperand (h : takeOperand t here x expected = .refuse halt) :
    halt.index = here.index ∧ NoOperand t x expected halt.kind := by
  unfold takeOperand at h
  split at h
  · rename_i hx
    cases h
    exact ⟨rfl, .category hx⟩
  split at h
  · split at h <;> cases h
    rename_i hf
    exact ⟨rfl, .misfit (Bool.not_eq_true _ ▸ hf)⟩
  rename_i hnone
  simp only [Bool.or_eq_true, not_or, Option.not_isSome_iff_eq_none] at hnone
  split at h <;> cases h
  · exact ⟨rfl, .unknown hnone.1 ‹_›⟩
  · rename_i hn
    exact ⟨rfl, .word (Bool.not_eq_true _ ▸ hn)⟩

theorem breaks_of_beginStatement (h : beginStatement t here x context = .refuse halt) :
    halt.index = here.index ∧ Breaks t x context halt.kind := by
  unfold beginStatement at h
  split at h
  · rename_i hfull
    cases h
    exact ⟨rfl, .tooDeep (by simpa using hfull)⟩
  split at h
  case h_2 hx =>
    split at h <;> cases h
    exact ⟨rfl, .unclosed hx ‹_›⟩
  case h_4 hx =>
    split at h <;> cases h
    rename_i hin
    exact ⟨rfl, .unopened hx (Bool.not_eq_true _ ▸ hin)⟩
  case h_6 =>
    split at h <;> cases h
    exact ⟨rfl, .word⟩
  case h_9 =>
    cases ha : assignTo t here x with
    | refuse halt' =>
      rw [ha] at h
      cases h
      obtain ⟨rfl, hnone⟩ := unresolved_of_assignTo ha
      exact ⟨rfl, .target hnone⟩
    | take t' new =>
      rw [ha] at h
      cases h
    | pass =>
      rw [ha] at h
      cases h
  case h_10 hx =>
    split at h
    · cases h
    · split at h <;> cases h
      exact ⟨rfl, .conditional hx⟩
  case h_11 =>
    cases h
    exact ⟨rfl, .word⟩
  all_goals cases h

/-! ## All goals -/

/-- What a goal refuses, as the breach of which rule. -/
inductive Goal.Refuses (t : ScopeTable) (x : Lexeme) : Goal → DiagnosticKind → Prop
  | programWord (hx : x.category ≠ .programWord) : Refuses t x .programWord .missingProgram
  | typeName (hnone : x.namedType? = none) : Refuses t x .typeName .unknownDataType
  | variableName {type : DataType} {kind : DiagnosticKind} (hn : NoName t x kind) :
      Refuses t x (.variableName type) kind
  | beginWord (hx : x.category ≠ .beginWord) : Refuses t x .beginWord (.awaitedName "begin")
  | operator {context : Context} {kind : DiagnosticKind} (hb : Breaks t x context kind) :
      Refuses t x (.operator context) kind
  | moreStatements {context : Context} {kind : DiagnosticKind} (hin : t.inCompound = true)
      (hb : Breaks t x context kind) : Refuses t x (.moreStatements context) kind
  | room {depth : Nat} (hfull : t.hasRoom depth = false) : Refuses t x (.room depth) .nestingTooDeep
  | endWord (hx : x.category ≠ .endWord) : Refuses t x .endWord (.awaitedName "end")
  | word {category : Category} {text : String} (hx : x.is category text = false) :
      Refuses t x (.word category text) (.awaitedWord text)
  | target (hnone : x.resolve? t = none) : Refuses t x .target .undefinedAssignmentTarget
  | value {type : DataType} (hx : x.category ≠ .becomes) : Refuses t x (.value type) .awaitedAppropriation
  | readTarget (hnone : x.resolve? t = none) : Refuses t x .readTarget .undefinedVariable
  | term {expected : Option DataType} {kind : DiagnosticKind} (ho : NoOperand t x expected kind) :
      Refuses t x (.term expected) kind
  | operand {expected : Option DataType} {kind : DiagnosticKind} (ho : NoOperand t x expected kind) :
      Refuses t x (.operand expected) kind

/-- A goal refuses a lexeme where it stands, unless it misses the opening of the comment before it. -/
theorem refuses_of_onLexeme (h : g.onLexeme t here x = .refuse halt) :
    halt.index = here.index ∧ g.Refuses t x halt.kind ∨
      g = .moreOperators ∧ here.loose? = some halt.index ∧ halt.kind = .missingCommentOpening := by
  cases g with
  | operator context =>
    obtain ⟨hi, hb⟩ := breaks_of_beginStatement h
    exact .inl ⟨hi, .operator hb⟩
  | moreStatements context =>
    rw [Goal.onLexeme] at h
    split at h
    · rename_i hin
      obtain ⟨hi, hb⟩ := breaks_of_beginStatement h
      exact .inl ⟨hi, .moreStatements hin hb⟩
    · cases h
  | variableName type =>
    obtain ⟨hi, hn⟩ := noName_of_declareName h
    exact .inl ⟨hi, .variableName hn⟩
  | target =>
    obtain ⟨rfl, hnone⟩ := unresolved_of_assignTo h
    exact .inl ⟨rfl, .target hnone⟩
  | operand expected =>
    obtain ⟨hi, ho⟩ := noOperand_of_takeOperand h
    exact .inl ⟨hi, .operand ho⟩
  | term expected =>
    rw [Goal.onLexeme] at h
    split at h
    · cases h
    · obtain ⟨hi, ho⟩ := noOperand_of_takeOperand h
      exact .inl ⟨hi, .term ho⟩
  | readTarget =>
    rw [Goal.onLexeme] at h
    split at h <;> cases h
    exact .inl ⟨rfl, .readTarget (Option.not_isSome_iff_eq_none.mp ‹_›)⟩
  | moreOperators =>
    rw [Goal.onLexeme] at h
    split at h
    · rename_i hloose
      cases h
      exact .inr ⟨rfl, hloose, rfl⟩
    · split at h <;> cases h
  | programWord =>
    rw [Goal.onLexeme] at h
    split at h <;> cases h
    exact .inl ⟨rfl, .programWord ‹_›⟩
  | typeName =>
    rw [Goal.onLexeme] at h
    split at h <;> cases h
    exact .inl ⟨rfl, .typeName ‹_›⟩
  | beginWord =>
    rw [Goal.onLexeme] at h
    split at h <;> cases h
    exact .inl ⟨rfl, .beginWord ‹_›⟩
  | room depth =>
    rw [Goal.onLexeme] at h
    split at h <;> cases h
    exact .inl ⟨rfl, .room (Bool.not_eq_true _ ▸ ‹_›)⟩
  | endWord =>
    rw [Goal.onLexeme] at h
    split at h <;> cases h
    exact .inl ⟨rfl, .endWord ‹_›⟩
  | word category text =>
    rw [Goal.onLexeme] at h
    split at h <;> cases h
    exact .inl ⟨rfl, .word (Bool.not_eq_true _ ▸ ‹_›)⟩
  | value type =>
    rw [Goal.onLexeme] at h
    split at h <;> cases h
    exact .inl ⟨rfl, .value ‹_›⟩
  | moreVariables type =>
    rw [Goal.onLexeme] at h
    split at h
    · cases h
    · split at h <;> cases h
  | variableLists | elseBranch context | moreReadTargets | moreWritten | moreTerms expected | moreExpressions =>
    rw [Goal.onLexeme] at h
    split at h <;> cases h

/-! ## The end of the input -/

/-- What a goal lacks at the end of the input. -/
inductive Goal.Lacks (t : ScopeTable) : Goal → DiagnosticKind → Prop
  | programWord : Lacks t .programWord .missingProgram
  | typeName : Lacks t .typeName .unknownDataType
  | variableName {type : DataType} : Lacks t (.variableName type) .badVariableName
  | beginWord : Lacks t .beginWord (.awaitedName "begin")
  | full {g : Goal} : Lacks t g .nestingTooDeep
  | unclosed {g : Goal} (hin : t.inCompound = true) : Lacks t g (.awaitedName "]")
  | endWord : Lacks t .endWord (.awaitedName "end")
  | word {category : Category} {text : String} : Lacks t (.word category text) (.awaitedWord text)
  | target : Lacks t .target .undefinedAssignmentTarget
  | value {type : DataType} : Lacks t (.value type) .awaitedAppropriation
  | readTarget : Lacks t .readTarget .undefinedVariable
  | term {expected : Option DataType} : Lacks t (.term expected) (.awaitedWord "variable or value")
  | operand {expected : Option DataType} : Lacks t (.operand expected) (.awaitedWord "variable or value")

theorem lacks_of_endStatement (h : endStatement t here context = some halt) :
    halt.index = here.index ∧ g.Lacks t halt.kind := by
  unfold endStatement at h
  split at h
  · cases h
    exact ⟨rfl, .full⟩
  split at h <;> cases h
  exact ⟨rfl, .unclosed ‹_›⟩

/-- A goal complains at the end, unless it misses the opening of the comment before it. -/
theorem lacks_of_onEnd (h : g.onEnd t here = some halt) :
    halt.index = here.index ∧ g.Lacks t halt.kind ∨
      g = .moreOperators ∧ here.loose? = some halt.index ∧ halt.kind = .missingCommentOpening := by
  cases g with
  | operator context => exact .inl (lacks_of_endStatement h)
  | moreStatements context =>
    rw [Goal.onEnd] at h
    split at h
    · exact .inl (lacks_of_endStatement h)
    · cases h
  | room depth =>
    rw [Goal.onEnd] at h
    split at h <;> cases h
    exact .inl ⟨rfl, .full⟩
  | moreOperators =>
    obtain ⟨closing, hloose, rfl⟩ := Option.map_eq_some_iff.mp h
    exact .inr ⟨rfl, hloose, rfl⟩
  | programWord | typeName | variableName _ | beginWord | endWord | word _ _ | target | value _ | readTarget | term _
  | operand _ =>
    cases h
    exact .inl ⟨rfl, by constructor⟩
  | variableLists | moreVariables _ | elseBranch _ | moreReadTargets | moreWritten | moreTerms _ | moreExpressions =>
    cases h

/-! ## Refused lexemes -/

/-- The kinds of a breach at a name that is unknown. -/
def unknownKinds : List DiagnosticKind :=
  [.undefinedVariable, .undefinedAssignmentTarget]

/-- A breach at the lexeme that is refused. A name is refused as unknown only where it is unknown. -/
structure Refusal (t : ScopeTable) (here : Place) (x : Lexeme) (halt : Halt) : Prop where
  index_eq : halt.index = here.index
  unknown : halt.kind ∈ unknownKinds → x.category = .unclassified → t.find? x.text = none

theorem find?_of_resolve? (hnone : x.resolve? t = none) (hx : x.category = .unclassified) : t.find? x.text = none := by
  rwa [Lexeme.resolve?_of_eq hx] at hnone

/-- A name that is refused as unknown is unknown. -/
theorem find?_of_refuses (h : g.Refuses t x kind) (hk : kind ∈ unknownKinds) (hx : x.category = .unclassified) :
    t.find? x.text = none := by
  cases h with
  | target hnone | readTarget hnone => exact find?_of_resolve? hnone hx
  | operator hb | moreStatements _ hb =>
    cases hb with
    | target hnone => exact find?_of_resolve? hnone hx
    | _ => simp [unknownKinds] at hk
  | term ho | operand ho =>
    cases ho with
    | unknown hnone _ => exact hnone
    | _ => simp [unknownKinds] at hk
  | variableName hn => cases hn <;> simp [unknownKinds] at hk
  | _ => simp [unknownKinds] at hk

/-- A goal refuses a lexeme for what it is, unless it misses the opening of a comment before it. -/
theorem refusal_of_onLexeme (h : g.onLexeme t here x = .refuse halt) (hk : halt.kind ≠ .missingCommentOpening) :
    Refusal t here x halt := by
  rcases refuses_of_onLexeme h with ⟨hi, hrefuses⟩ | ⟨_, _, hkind⟩
  · exact ⟨hi, fun hmem hx => find?_of_refuses hrefuses hmem hx⟩
  · exact absurd hkind hk

theorem index_of_onEnd (h : g.onEnd t here = some halt) (hk : halt.kind ≠ .missingCommentOpening) :
    halt.index = here.index := by
  rcases lacks_of_onEnd h with ⟨hi, _⟩ | ⟨_, _, hkind⟩
  · exact hi
  · exact absurd hkind hk

/-! ## Breaches -/

/-- The kinds of a breach that no single word is at fault for. -/
def strayKinds : List DiagnosticKind :=
  [.nestingTooDeep, .missingCommentOpening, .missingCommentClosing, .trailingAfterEnd]

/-- A breach is found at a word that a goal refuses, or at the end of the input. -/
theorem refused_of_breach {program : List Lexeme} (h : breach? program = some halt) (hk : halt.kind ∉ strayKinds) :
    (∃ x s loose? passed g rest, wordAt? program halt.index = some x ∧ Reaches program halt.index s ∧
      s.goals = passed ++ g :: rest ∧ PassAll s.scope ⟨halt.index, loose?⟩ x passed ∧
      g.onLexeme s.scope ⟨halt.index, loose?⟩ x = .refuse halt) ∨
      halt.index = program.length ∧ ∃ s, Reaches program program.length s := by
  simp only [strayKinds, List.mem_cons, List.not_mem_nil, or_false, not_or] at hk
  rcases breach?_eq_some h with ⟨i, x, s, hx, hs, hstep⟩ | ⟨s, hs, hfinish⟩
  · have hi := (List.getElem?_eq_some_iff.mp hx).1
    have hread := read_of_reaches (Nat.le_of_lt hi) hs
    cases halting_of_step hstep with
    | full | stray | late => simp at hk
    | @goal _ loose? passed rest g hm hc hgoals hpass hg =>
      rw [hread] at hpass hg
      have hindex : halt.index = i := (refusal_of_onLexeme hg hk.2.1).index_eq
      rw [hindex]
      exact .inl ⟨x, s, loose?, passed, g, rest, wordAt?_of_outside hs hx hm hc, hs, hgoals, hpass, hg⟩
  · right
    refine ⟨?_, s, hs⟩
    have hread := read_of_reaches (Nat.le_refl _) hs
    unfold State.finish at hfinish
    split at hfinish
    · cases hfinish
      exact absurd rfl hk.2.2.1
    · obtain ⟨passed, g, rest, _, _, hg⟩ := complaint_eq_some hfinish
      rw [index_of_onEnd hg hk.2.1, hread]

end MiniPascal
