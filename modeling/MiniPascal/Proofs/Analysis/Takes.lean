import MiniPascal.Goal.Lemmas

/-!
# What a goal takes

All ways in which a goal can take a lexeme, with the scope table behind it and the goals that stand in place of the goal.

* `Begins`: the beginnings of a statement (`begins_of_take`, `take_of_begins`).
* `Goal.Takes`: what the other goals take (`takes_of_onLexeme`).
* `Goal.passable`: the goals that can be met without a lexeme (`passable_of_onLexeme`).
-/

namespace MiniPascal

variable {t t' : ScopeTable} {here : Place} {x : Lexeme} {g : Goal} {new : List Goal} {context : Context}

/-! ## Statements -/

/-- A lexeme begins a statement, or declares or closes before one. -/
inductive Begins (t : ScopeTable) (x : Lexeme) (context : Context) : ScopeTable → List Goal → Prop
  | var (hx : x.category = .varWord) : Begins t x context t [.typeName, .operator context]
  | opening (hx : x.category = .compoundOpen) :
      Begins t x context (t.openInner (.compound 0)) [.room context.depth, .moreStatements context]
  | closing (hx : x.category = .compoundClose) (hin : t.inCompound = true) :
      Begins t x context t.closeBlock [.moreStatements context]
  | whileDo (hx : x.category = .whileWord) : Begins t x context t (whileGoals context ++ [.moreStatements context])
  | forDo (hx : x.category = .cycle) (htext : x.text = "for") :
      Begins t x context t (forGoals context ++ [.moreStatements context])
  | read (hx : x.category = .readWord) : Begins t x context t (readGoals ++ [.moreStatements context])
  | write (hx : x.category = .writeWord) : Begins t x context t (writeGoals ++ [.moreStatements context])
  | assign {type : DataType} (hx : x.category = .unclassified) (htype : t.find? x.text = some type) :
      Begins t x context t [.value type, .moreStatements context]
  | conditional (hx : x.category = .conditional) (htext : x.text = "if") :
      Begins t x context t (ifGoals context ++ [.moreStatements context])

/-- The target of an assignment is a variable that is known. -/
theorem assignTo_eq_take (h : assignTo t here x = .take t' new) :
    t' = t ∧ ∃ type, x.category = .unclassified ∧ t.find? x.text = some type ∧ new = [.value type] := by
  unfold assignTo at h
  split at h
  · rename_i type htype
    cases h
    obtain ⟨hx, htype⟩ := Lexeme.resolve?_eq_some_iff.mp htype
    exact ⟨rfl, type, hx, htype, rfl⟩
  · cases h

theorem begins_of_take (h : beginStatement t here x context = .take t' new) : Begins t x context t' new := by
  unfold beginStatement at h
  split at h
  · cases h
  split at h
  case h_1 hx =>
    cases h
    exact .var hx
  case h_2 => split at h <;> cases h
  case h_3 hx =>
    cases h
    exact .opening hx
  case h_4 hx =>
    split at h
    · rename_i hin
      cases h
      exact .closing hx hin
    · cases h
  case h_5 hx =>
    cases h
    exact .whileDo hx
  case h_6 hx =>
    split at h
    · rename_i htext
      cases h
      exact .forDo hx htext
    · cases h
  case h_7 hx =>
    cases h
    exact .read hx
  case h_8 hx =>
    cases h
    exact .write hx
  case h_9 hx =>
    cases ha : assignTo t here x with
    | take t₁ new₁ =>
      rw [ha] at h
      cases h
      obtain ⟨rfl, type, _, htype, rfl⟩ := assignTo_eq_take ha
      exact .assign hx htype
    | pass =>
      rw [ha] at h
      cases h
    | refuse halt =>
      rw [ha] at h
      cases h
  case h_10 hx =>
    split at h
    · rename_i htext
      cases h
      exact .conditional hx htext
    · split at h <;> cases h
  case h_11 => cases h

/-- Where there is room, a lexeme that begins a statement is taken. -/
theorem take_of_begins (hroom : t.hasRoom context.depth = true) (h : Begins t x context t' new) :
    beginStatement t here x context = .take t' new := by
  cases h with
  | assign hx htype => simp [beginStatement, hroom, hx, assignTo, htype]
  | forDo hx htext | conditional hx htext => simp [beginStatement, hroom, hx, htext]
  | closing hx hin => simp [beginStatement, hroom, hx, hin]
  | var hx | opening hx | whileDo hx | read hx | write hx => simp [beginStatement, hroom, hx]

/-! ## All goals -/

/-- A lexeme is a variable that is known or a literal, and fits what is expected. -/
structure Lexeme.Suits (x : Lexeme) (t : ScopeTable) (expected : Option DataType) : Prop where
  unclassified : x.category = .unclassified
  known : (t.find? x.text).isSome ∨ (DataType.ofLiteral? x.text).isSome
  fits : fits expected (t.find? x.text) x.text

theorem takeOperand_eq_take {expected : Option DataType} (h : takeOperand t here x expected = .take t' new) :
    t' = t ∧ new = [] ∧ x.Suits t expected := by
  unfold takeOperand at h
  split at h
  · cases h
  rename_i hx
  split at h
  case isTrue hk =>
    split at h
    case isTrue hf =>
      cases h
      exact ⟨rfl, rfl, Decidable.not_not.mp hx, by simpa using hk, hf⟩
    case isFalse => cases h
  case isFalse => split at h <;> cases h

theorem declareName_eq_take {type : DataType} (h : declareName t here x type = .take t' new) :
    x.category = .unclassified ∧ new = [] := by
  unfold declareName at h
  split at h
  · cases h
  split at h
  · cases h
  rename_i hx
  split at h
  · cases h
  split at h <;> cases h
  exact ⟨Decidable.not_not.mp hx, rfl⟩

/-- What a goal takes. -/
inductive Goal.Takes (t : ScopeTable) (here : Place) (x : Lexeme) : Goal → ScopeTable → List Goal → Prop
  | programWord (hx : x.category = .programWord) :
      Takes t here x .programWord (t.openBlock .program ScopeTable.global) [.variableLists, .beginWord]
  | variableLists (hx : x.category = .varWord) : Takes t here x .variableLists t [.typeName, .variableLists]
  | typeName {type : DataType} (htype : x.namedType? = some type) :
      Takes t here x .typeName t [.variableName type, .moreVariables type]
  | variableName {type : DataType} {t' : ScopeTable} (hx : x.category = .unclassified)
      (hd : declareName t here x type = .take t' []) : Takes t here x (.variableName type) t' []
  | comma {type : DataType} (hx : x.category = .comma) :
      Takes t here x (.moreVariables type) t [.variableName type, .moreVariables type]
  | semicolon {type : DataType} (hx : x.category = .semicolon) : Takes t here x (.moreVariables type) t []
  | beginWord (hx : x.category = .beginWord) :
      Takes t here x .beginWord (t.openInner .body) [.operator .outermost, .moreOperators, .endWord]
  | operator {context : Context} {t' : ScopeTable} {new : List Goal} (hb : Begins t x context t' new) :
      Takes t here x (.operator context) t' new
  | moreStatements {context : Context} {t' : ScopeTable} {new : List Goal} (hb : Begins t x context t' new) :
      Takes t here x (.moreStatements context) t' new
  | moreOperators (hx : x.category = .semicolon) :
      Takes t here x .moreOperators t [.operator .outermost, .moreOperators]
  | endWord (hx : x.category = .endWord) : Takes t here x .endWord t.closeBlock []
  | word {category : Category} {text : String} (hx : x.is category text) : Takes t here x (.word category text) t []
  | elseBranch {context : Context} (hx : x.is .conditional "else") :
      Takes t here x (.elseBranch context) t [.room context.inner.depth, .operator context.inner]
  | target {type : DataType} (hx : x.category = .unclassified) (htype : t.find? x.text = some type) :
      Takes t here x .target t [.value type]
  | value {type : DataType} (hx : x.category = .becomes) : Takes t here x (.value type) t (expression (some type))
  | readTarget (hx : x.category = .unclassified) (hknown : (t.find? x.text).isSome) : Takes t here x .readTarget t []
  | moreReadTargets (hx : x.category = .comma) : Takes t here x .moreReadTargets t [.readTarget, .moreReadTargets]
  | moreWritten (hx : x.category = .comma) : Takes t here x .moreWritten t (comparison ++ [.moreWritten])
  | sign {expected : Option DataType} (hx : x.category = .unary ∨ x.category = .addition) :
      Takes t here x (.term expected) t [.operand expected]
  | term {expected : Option DataType} (ho : x.Suits t expected) : Takes t here x (.term expected) t []
  | operand {expected : Option DataType} (ho : x.Suits t expected) : Takes t here x (.operand expected) t []
  | moreTerms {expected : Option DataType} (hx : x.category = .addition ∨ x.category = .multiplication) :
      Takes t here x (.moreTerms expected) t (expression expected)
  | moreExpressions (hx : x.category = .relation ∨ x.category = .logicalOr ∨ x.category = .logicalAnd) :
      Takes t here x .moreExpressions t comparison

theorem takes_of_onLexeme (h : g.onLexeme t here x = .take t' new) : g.Takes t here x t' new := by
  cases g with
  | operator context => exact .operator (begins_of_take h)
  | moreStatements context =>
    rw [Goal.onLexeme] at h
    split at h
    · exact .moreStatements (begins_of_take h)
    · cases h
  | variableName type =>
    obtain ⟨hx, rfl⟩ := declareName_eq_take h
    exact .variableName hx h
  | target =>
    obtain ⟨rfl, type, hx, htype, rfl⟩ := assignTo_eq_take h
    exact .target hx htype
  | operand expected =>
    obtain ⟨rfl, rfl, ho⟩ := takeOperand_eq_take h
    exact .operand ho
  | term expected =>
    rw [Goal.onLexeme] at h
    split at h
    · rename_i hx
      cases h
      exact .sign hx
    · obtain ⟨rfl, rfl, ho⟩ := takeOperand_eq_take h
      exact .term ho
  | programWord =>
    rw [Goal.onLexeme] at h
    split at h <;> cases h
    exact .programWord ‹_›
  | variableLists =>
    rw [Goal.onLexeme] at h
    split at h <;> cases h
    exact .variableLists ‹_›
  | typeName =>
    rw [Goal.onLexeme] at h
    split at h <;> cases h
    exact .typeName ‹_›
  | moreVariables type =>
    rw [Goal.onLexeme] at h
    split at h
    · cases h
      exact .comma ‹_›
    · split at h <;> cases h
      exact .semicolon ‹_›
  | beginWord =>
    rw [Goal.onLexeme] at h
    split at h <;> cases h
    exact .beginWord ‹_›
  | room depth =>
    rw [Goal.onLexeme] at h
    split at h <;> cases h
  | moreOperators =>
    rw [Goal.onLexeme] at h
    split at h
    · cases h
    · split at h <;> cases h
      exact .moreOperators ‹_›
  | endWord =>
    rw [Goal.onLexeme] at h
    split at h <;> cases h
    exact .endWord ‹_›
  | word category text =>
    rw [Goal.onLexeme] at h
    split at h <;> cases h
    exact .word ‹_›
  | elseBranch context =>
    rw [Goal.onLexeme] at h
    split at h <;> cases h
    exact .elseBranch ‹_›
  | value type =>
    rw [Goal.onLexeme] at h
    split at h <;> cases h
    exact .value ‹_›
  | readTarget =>
    rw [Goal.onLexeme] at h
    split at h <;> cases h
    rename_i hknown
    obtain ⟨type, htype⟩ := Option.isSome_iff_exists.mp hknown
    obtain ⟨hx, htype⟩ := Lexeme.resolve?_eq_some_iff.mp htype
    exact .readTarget hx (Option.isSome_of_eq_some htype)
  | moreReadTargets =>
    rw [Goal.onLexeme] at h
    split at h <;> cases h
    exact .moreReadTargets ‹_›
  | moreWritten =>
    rw [Goal.onLexeme] at h
    split at h <;> cases h
    exact .moreWritten ‹_›
  | moreTerms expected =>
    rw [Goal.onLexeme] at h
    split at h <;> cases h
    exact .moreTerms ‹_›
  | moreExpressions =>
    rw [Goal.onLexeme] at h
    split at h <;> cases h
    exact .moreExpressions ‹_›

/-! ## Goals that let a lexeme pass -/

/-- Whether a goal can be met without a lexeme. -/
def Goal.passable : Goal → Bool
  | .variableLists | .moreVariables _ | .operator _ | .moreStatements _ | .room _ | .moreOperators | .elseBranch _
  | .moreReadTargets | .moreWritten | .moreTerms _ | .moreExpressions => true
  | _ => false

theorem assignTo_ne_pass : assignTo t here x ≠ .pass := by
  unfold assignTo
  split <;> nofun

theorem takeOperand_ne_pass {expected : Option DataType} : takeOperand t here x expected ≠ .pass := by
  unfold takeOperand
  split
  · nofun
  split
  · split <;> nofun
  · split <;> nofun

theorem declareName_ne_pass {type : DataType} : declareName t here x type ≠ .pass := by
  unfold declareName
  split
  · nofun
  split
  · nofun
  split
  · nofun
  split <;> nofun

theorem passable_of_onLexeme (h : g.onLexeme t here x = .pass) : g.passable := by
  cases g with
  | variableName type => exact absurd h declareName_ne_pass
  | target => exact absurd h assignTo_ne_pass
  | operand expected => exact absurd h takeOperand_ne_pass
  | term expected =>
    rw [Goal.onLexeme] at h
    split at h
    · cases h
    · exact absurd h takeOperand_ne_pass
  | programWord | typeName | beginWord | endWord | word category text | value type | readTarget =>
    rw [Goal.onLexeme] at h
    split at h <;> cases h
  | _ => rfl

end MiniPascal
