import MiniPascal.Proofs.Analysis.Turns
import MiniPascal.Proofs.Reading.Reference

/-!
# Goals and phases

The phase before a lexeme tells what the goals on top of the stack await there (`Fits`). A goal that lets a lexeme pass
leaves goals that fit the same phase (`fits_of_pass`), and one that takes it leaves goals that fit the next one
(`fits_of_takes`).
-/

namespace MiniPascal

variable {program : List Lexeme} {i : Nat} {x : Lexeme} {p : Phase} {g : Goal} {new rest : List Goal}
  {t t' : ScopeTable} {here : Place} {target? : Option Nat} {expected : Option DataType}

namespace Phase

/-- The phases in which nothing is due. -/
def settled : Phase → Bool
  | resting | named _ | operandBehind _ => true
  | _ => false

/-- The phases in which a single word may be awaited. -/
def awaitsWord : Phase → Bool
  | resting | named _ | operandBehind _ | reading | operandDue none => true
  | _ => false

/-- The words that go on with what stands before them. -/
def joining : List Category :=
  [.comma, .addition, .multiplication, .relation, .logicalOr, .logicalAnd]

/-- Where nothing is due a word that goes on with nothing starts anew. -/
theorem next_of_settled (hp : p.settled) (hx : x.category ∉ joining) : p.next i x = start i x := by
  simp only [joining, List.mem_cons, List.not_mem_nil, or_false, not_or] at hx
  cases p with
  | resting => rfl
  | named type => simp [next, hx]
  | operandBehind target? => simp [next, hx]
  | _ => cases hp

/-- The phase behind a single word does not depend on where it stands. -/
theorem next_of_plain {category : Category} {text : String} (hx : x.is category text) (hc : category ∈ plainWords) :
    p.next i x = p.next 0 ⟨text, category, .start⟩ := by
  obtain ⟨text', category', position⟩ := x
  obtain ⟨rfl, rfl⟩ := Lexeme.is_iff.mp hx
  simp only [plainWords, List.mem_cons, List.not_mem_nil, or_false] at hc
  rcases hc with rfl | rfl | rfl | rfl <;> cases p <;> rfl

end Phase

/-! ## What goals await -/

/-- In an assignment an operand of the type of the target is expected, elsewhere any. -/
inductive Expects (program : List Lexeme) : Option Nat → Option DataType → Prop
  | any : Expects program none none
  | typed {target : Nat} {type : DataType} (h : TypedAt program target type) :
      Expects program (some target) (some type)

/-- The goals await what a phase tells, and the goals below what the phases behind tell. -/
def Fits (program : List Lexeme) : List Goal → Phase → Prop
  | [], p => p.settled
  | .word category text :: rest, p => p.awaitsWord ∧ Fits program rest (p.next 0 ⟨text, category, .start⟩)
  | .typeName :: rest, p => p = .typeDue ∧ ∀ q : Phase, q.settled → Fits program rest q
  | .variableName type :: rest, p => p = .nameDue type ∧ Fits program rest (.named type)
  | .moreVariables type :: rest, p => p = .named type ∧ ∀ q : Phase, q.settled → Fits program rest q
  | .target :: rest, p => p.settled ∧ ∀ target, Fits program rest (.operandBehind (some target))
  | .value type :: rest, p =>
    ∃ target, p = .assigning target ∧ TypedAt program target type ∧ Fits program rest (.operandBehind (some target))
  | .readTarget :: rest, p | .moreReadTargets :: rest, p => p = .reading ∧ Fits program rest .reading
  | .term expected :: rest, p | .operand expected :: rest, p =>
    ∃ target?, p = .operandDue target? ∧ Expects program target? expected ∧ Fits program rest (.operandBehind target?)
  | .moreTerms expected :: rest, p =>
    ∃ target?, p = .operandBehind target? ∧ Expects program target? expected ∧
      Fits program rest (.operandBehind target?)
  | .moreExpressions :: rest, p | .moreWritten :: rest, p =>
    p = .operandBehind none ∧ Fits program rest (.operandBehind none)
  | _ :: rest, p => p.settled ∧ ∀ q : Phase, q.settled → Fits program rest q

/-- Goals that await statements or what stands around them. -/
def Rests (program : List Lexeme) (goals : List Goal) : Prop :=
  ∀ q : Phase, q.settled → Fits program goals q

theorem fits_expression (he : Expects program target? expected) (h : Fits program rest (.operandBehind target?)) :
    Fits program (expression expected ++ rest) (.operandDue target?) :=
  ⟨target?, rfl, he, target?, rfl, he, h⟩

theorem fits_comparison (h : Fits program rest (.operandBehind none)) :
    Fits program (comparison ++ rest) (.operandDue none) :=
  fits_expression .any ⟨rfl, h⟩

/-- Where a name is to be declared a goal awaits it. -/
theorem variableName_of_fits {type : DataType} (h : Fits program (g :: rest) (.nameDue type)) :
    g = .variableName type := by
  cases g <;> simp_all [Fits, Phase.settled, Phase.awaitsWord]

/-- A goal that lets a lexeme pass leaves goals that fit the same phase. -/
theorem fits_of_pass (h : Fits program (g :: rest) p) (hg : g.onLexeme t here x = .pass) : Fits program rest p := by
  have hpass := passable_of_onLexeme hg
  cases g with
  | variableLists | operator _ | moreStatements _ | room _ | moreOperators | elseBranch _ => exact h.2 p h.1
  | moreVariables type =>
    obtain ⟨rfl, h⟩ := h
    exact h _ rfl
  | moreReadTargets | moreWritten | moreExpressions =>
    obtain ⟨rfl, h⟩ := h
    exact h
  | moreTerms expected =>
    obtain ⟨target?, rfl, _, h⟩ := h
    exact h
  | _ => cases hpass

theorem fits_of_passAll {passed : List Goal} (h : Fits program (passed ++ rest) p) (hp : PassAll t here x passed) :
    Fits program rest p := by
  induction passed with
  | nil => exact h
  | cons g passed ih =>
    exact ih (fits_of_pass h (hp g List.mem_cons_self)) fun g' hg' => hp g' (List.mem_cons_of_mem _ hg')

/-! ## Lexemes that are taken -/

/-- The goals of a statement fit the phase behind its first word. -/
theorem fits_of_begins {context : Context} (hp : p.settled) (hr : Rests program rest) (h : Begins t x context t' new)
    (htyped : ∀ type, t.find? x.text = some type → TypedAt program i type) :
    Fits program (new ++ rest) (p.next i x) := by
  have hnext (hx : x.category ∉ Phase.joining) : p.next i x = Phase.start i x := Phase.next_of_settled hp hx
  cases h with
  | var hx =>
    rw [hnext (by simp [hx, Phase.joining]), Phase.start, hx]
    exact ⟨rfl, fun q hq => ⟨hq, hr⟩⟩
  | opening hx =>
    rw [hnext (by simp [hx, Phase.joining]), Phase.start, hx]
    exact ⟨rfl, fun q hq => ⟨hq, hr⟩⟩
  | closing hx _ =>
    rw [hnext (by simp [hx, Phase.joining]), Phase.start, hx]
    exact ⟨rfl, hr⟩
  | whileDo hx =>
    rw [hnext (by simp [hx, Phase.joining]), Phase.start, hx]
    exact fits_comparison ⟨rfl, rfl, fun q hq => ⟨hq, hr⟩⟩
  | forDo hx htext =>
    rw [hnext (by simp [hx, Phase.joining]), Phase.start, hx, htext]
    exact ⟨rfl, fun target => ⟨rfl, fits_comparison ⟨rfl, rfl, fun q hq => ⟨hq, hr⟩⟩⟩⟩
  | read hx =>
    rw [hnext (by simp [hx, Phase.joining]), Phase.start, hx]
    exact ⟨rfl, rfl, rfl, rfl, rfl, hr⟩
  | write hx =>
    rw [hnext (by simp [hx, Phase.joining]), Phase.start, hx]
    exact ⟨rfl, fits_comparison ⟨rfl, rfl, rfl, hr⟩⟩
  | assign hx htype =>
    rw [hnext (by simp [hx, Phase.joining]), Phase.start, hx]
    exact ⟨i, rfl, htyped _ htype, rfl, hr⟩
  | conditional hx htext =>
    rw [hnext (by simp [hx, Phase.joining]), Phase.start, hx, htext]
    exact fits_comparison ⟨rfl, rfl, fun q hq => ⟨hq, fun q hq => ⟨hq, hr⟩⟩⟩

/-- A goal that takes a lexeme leaves goals that fit the next phase. -/
theorem fits_of_takes (h : Fits program (g :: rest) p) (hg : g.Plain) (ht : g.Takes t here x t' new)
    (htyped : ∀ type, t.find? x.text = some type → TypedAt program i type) :
    Fits program (new ++ rest) (p.next i x) := by
  have hstart (hp : p.settled) (hx : x.category ∉ Phase.joining) : p.next i x = Phase.start i x :=
    Phase.next_of_settled hp hx
  cases ht with
  | programWord hx =>
    rw [hstart h.1 (by simp [hx, Phase.joining]), Phase.start, hx]
    exact ⟨rfl, fun q hq => ⟨hq, h.2⟩⟩
  | variableLists hx =>
    rw [hstart h.1 (by simp [hx, Phase.joining]), Phase.start, hx]
    exact ⟨rfl, fun q hq => ⟨hq, h.2⟩⟩
  | typeName htype =>
    obtain ⟨rfl, hr⟩ := h
    rw [Lexeme.namedType?_eq_some_iff] at htype
    rw [Phase.next, if_pos htype.1, htype.2]
    exact ⟨rfl, rfl, hr⟩
  | variableName hx _ =>
    obtain ⟨rfl, hr⟩ := h
    exact hr
  | comma hx =>
    obtain ⟨rfl, hr⟩ := h
    rw [Phase.next, if_pos hx]
    exact ⟨rfl, rfl, hr⟩
  | semicolon hx =>
    obtain ⟨rfl, hr⟩ := h
    rw [hstart rfl (by simp [hx, Phase.joining]), Phase.start, hx]
    exact hr _ rfl
  | beginWord hx =>
    rw [hstart h.1 (by simp [hx, Phase.joining]), Phase.start, hx]
    exact ⟨rfl, fun q hq => ⟨hq, fun q hq => ⟨hq, h.2⟩⟩⟩
  | operator hb => exact fits_of_begins h.1 h.2 hb htyped
  | moreStatements hb => exact fits_of_begins h.1 h.2 hb htyped
  | moreOperators hx =>
    rw [hstart h.1 (by simp [hx, Phase.joining]), Phase.start, hx]
    exact ⟨rfl, fun q hq => ⟨hq, h.2⟩⟩
  | endWord hx =>
    rw [hstart h.1 (by simp [hx, Phase.joining]), Phase.start, hx]
    exact h.2 _ rfl
  | word hx =>
    rw [Phase.next_of_plain hx hg.1]
    exact h.2
  | elseBranch hx =>
    rw [Lexeme.is_iff] at hx
    rw [hstart h.1 (by simp [hx, Phase.joining]), Phase.start, hx.1, hx.2]
    exact ⟨rfl, fun q hq => ⟨hq, h.2⟩⟩
  | target hx htype =>
    rw [hstart h.1 (by simp [hx, Phase.joining]), Phase.start, hx]
    exact ⟨i, rfl, htyped _ htype, h.2 i⟩
  | value hx =>
    obtain ⟨target, rfl, htype, h⟩ := h
    exact fits_expression (.typed htype) h
  | readTarget hx _ =>
    obtain ⟨rfl, h⟩ := h
    rw [Phase.next, if_neg (by simp [hx])]
    exact h
  | moreReadTargets hx =>
    obtain ⟨rfl, h⟩ := h
    rw [Phase.next, if_neg (by simp [hx])]
    exact ⟨rfl, rfl, h⟩
  | moreWritten hx =>
    obtain ⟨rfl, h⟩ := h
    rw [Phase.next, if_neg (by simp [hx]), if_pos (by simp [hx])]
    exact fits_comparison ⟨rfl, h⟩
  | sign hx =>
    obtain ⟨target?, rfl, he, h⟩ := h
    rw [Phase.next, if_neg (by rcases hx with hx | hx <;> simp [hx])]
    exact ⟨target?, rfl, he, h⟩
  | term ho | operand ho =>
    obtain ⟨target?, rfl, he, h⟩ := h
    rw [Phase.next, if_pos ho.unclassified]
    exact h
  | moreTerms hx =>
    obtain ⟨target?, rfl, he, h⟩ := h
    rw [Phase.next, if_pos (by rcases hx with hx | hx <;> simp [hx])]
    exact fits_expression he h
  | moreExpressions hx =>
    obtain ⟨rfl, h⟩ := h
    rw [Phase.next, if_neg (by rcases hx with hx | hx | hx <;> simp [hx]),
      if_pos (by rcases hx with hx | hx | hx <;> simp [hx])]
    exact fits_comparison h

end MiniPascal
