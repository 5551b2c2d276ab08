import MiniPascal.Dictionary.Builtin
import MiniPascal.Goal.Lemmas
import MiniPascal.Lexeme.Tokenize
import MiniPascal.Proofs.Grammar.Tree

/-!
# Programs without brackets

The grammar of programs without brackets as trees. An operator may be empty, but only where the word behind it tells so
(`FlatOperator.fills`); and every `else` may be asked to belong to the nearest conditional that waits for one
(`FlatOperator.nearest`).

* `FlatOperator`, `FlatProgram`: the trees, with their words and the nesting of their operators.
* `Lexeme.canonical`: the word of a lexeme, spelled canonically where only the category counts; with the built-in
  dictionary that is its own spelling (`canonical_of_mem_tokenize`).
* `FlatProgram.Derives`: a tree derives a list of lexemes.
-/

namespace MiniPascal

/-! ## Names and literals -/

/-- A variable is named by an identifier, and a literal is one. -/
def Operand.proper : Operand → Bool
  | named name => isIdentifier name
  | literal text => (DataType.ofLiteral? text).isSome

def Term.proper (t : Term) : Bool := t.operand.proper

def Expression.proper (e : Expression) : Bool :=
  e.first.proper && e.more.all (·.2.proper)

def Condition.proper (c : Condition) : Bool :=
  c.first.proper && c.more.all (·.2.proper)

def VariableList.proper (l : VariableList) : Bool :=
  (l.first :: l.more).all isIdentifier

def Assignment.proper (a : Assignment) : Bool :=
  isIdentifier a.target && a.value.proper

/-! ## Operators -/

/-- A statement without brackets or none, with the lists of variables before it. -/
inductive FlatOperator where
  | declaring (list : VariableList) (operator : FlatOperator)
  | empty
  | assign (assignment : Assignment)
  | read (first : String) (more : List String)
  | write (first : Condition) (more : List Condition)
  | whileDo (condition : Condition) (body : FlatOperator)
  | forDo (start : Assignment) (limit : Condition) (body : FlatOperator)
  | ifThen (condition : Condition) (branch : FlatOperator)
  | ifElse (condition : Condition) (branch alternative : FlatOperator)
  deriving DecidableEq

namespace FlatOperator

/-- The words of an operator. -/
def words : FlatOperator → List Word
  | declaring list operator => list.words ++ operator.words
  | empty => []
  | assign assignment => assignment.words
  | read first more =>
    ⟨.readWord, "read"⟩ :: ⟨.parenthesis, "("⟩ :: nameWord first ::
      (more.flatMap fun name => [commaWord, nameWord name]) ++ [⟨.parenthesis, ")"⟩]
  | write first more =>
    ⟨.writeWord, "write"⟩ :: ⟨.parenthesis, "("⟩ :: first.words ++
      (more.flatMap fun c => commaWord :: c.words) ++ [⟨.parenthesis, ")"⟩]
  | whileDo condition body => ⟨.whileWord, "while"⟩ :: condition.words ++ ⟨.doWord, "do"⟩ :: body.words
  | forDo start limit body =>
    ⟨.cycle, "for"⟩ :: start.words ++ ⟨.cycle, "to"⟩ :: limit.words ++ ⟨.doWord, "do"⟩ :: body.words
  | ifThen condition branch =>
    ⟨.conditional, "if"⟩ :: condition.words ++ ⟨.conditional, "then"⟩ :: branch.words
  | ifElse condition branch alternative =>
    ⟨.conditional, "if"⟩ :: condition.words ++ ⟨.conditional, "then"⟩ :: branch.words ++ elseWord :: alternative.words

/-- The number of bodies and branches of an operator around its deepest operator. -/
def nesting : FlatOperator → Nat
  | declaring _ operator => operator.nesting
  | empty | assign _ | read _ _ | write _ _ => 0
  | whileDo _ body | forDo _ _ body => body.nesting + 1
  | ifThen _ branch => branch.nesting + 1
  | ifElse _ branch alternative => max branch.nesting alternative.nesting + 1

/-- Whether names and literals are ones, and whether an operator is empty only directly before `end` or, inside a
branch behind a `then`, directly before `else`. -/
def fills (inThen : Bool) (next : Word) : FlatOperator → Bool
  | declaring list operator => list.proper && operator.fills inThen next
  | empty => next = endWord || inThen && next = elseWord
  | assign assignment => assignment.proper
  | read first more => (first :: more).all isIdentifier
  | write first more => (first :: more).all (·.proper)
  | whileDo condition body => condition.proper && body.fills inThen next
  | forDo start limit body => start.proper && limit.proper && body.fills inThen next
  | ifThen condition branch => condition.proper && branch.fills true next
  | ifElse condition branch alternative =>
    condition.proper && branch.fills true elseWord && alternative.fills inThen next

/-- Whether no conditional without an `else` ends before an `else`, where it would be the nearest one that waits. -/
def nearest (next : Word) : FlatOperator → Bool
  | declaring _ operator => operator.nearest next
  | empty | assign _ | read _ _ | write _ _ => true
  | whileDo _ body | forDo _ _ body => body.nearest next
  | ifThen _ branch => next ≠ elseWord && branch.nearest next
  | ifElse _ branch alternative => branch.nearest elseWord && alternative.nearest next

end FlatOperator

/-! ## Programs -/

/-- Lists of variables, operators with a semicolon behind each, and the last operator. -/
structure FlatProgram where
  lists : List VariableList
  operators : List FlatOperator
  last : FlatOperator
  deriving DecidableEq

namespace FlatProgram

/-- The words between `begin` and `end`, and the word `end`. -/
def bodyWords (operators : List FlatOperator) (last : FlatOperator) : List Word :=
  (operators.flatMap fun o => o.words ++ [semicolonWord]) ++ last.words ++ [endWord]

/-- The words of a program. -/
def words (p : FlatProgram) : List Word :=
  ⟨.programWord, "program"⟩ :: p.lists.flatMap (·.words) ++ ⟨.beginWord, "begin"⟩ :: bodyWords p.operators p.last

def nesting (p : FlatProgram) : Nat :=
  (p.operators.map (·.nesting)).foldr max p.last.nesting

def fills (p : FlatProgram) : Bool :=
  p.lists.all (·.proper) && p.operators.all (·.fills false semicolonWord) && p.last.fills false endWord

def nearest (p : FlatProgram) : Bool :=
  p.operators.all (·.nearest semicolonWord) && p.last.nearest endWord

end FlatProgram

/-! ## Lexemes as words of a tree -/

/-- The spelling that a tree has for the words of a category of which the spelling does not count. -/
def Category.spelling? : Category → Option String
  | .programWord => some "program"
  | .varWord => some "var"
  | .beginWord => some "begin"
  | .endWord => some "end"
  | .comma => some ","
  | .semicolon => some ";"
  | .whileWord => some "while"
  | .readWord => some "read"
  | .writeWord => some "write"
  | _ => none

/-- The word of a lexeme as a tree has it. A type has the name that declarations know it by. -/
def Lexeme.canonical (x : Lexeme) : Word where
  category := x.category
  text := (x.namedType?.map (·.name)).getD (x.category.spelling?.getD x.text)

theorem canonical_eq {x : Lexeme} {category : Category} (hx : x.category = category) (hc : category ≠ .typeWord) :
    x.canonical = ⟨category, category.spelling?.getD x.text⟩ := by
  subst hx
  simp [Lexeme.canonical, hc]

/-- A word that is classified is listed under its category. -/
theorem Dictionary.mem_of_classify {d : Dictionary} {word : String} {category : Category}
    (h : d.classify word = category) (hc : category ≠ .unclassified) :
    ∃ words, (category, words) ∈ d.entries ∧ word ∈ words := by
  rw [classify] at h
  cases hf : d.entries.find? fun e => e.2.contains word with
  | none =>
    rw [hf] at h
    exact absurd h.symm hc
  | some e =>
    rw [hf] at h
    obtain rfl : e.1 = category := h
    exact ⟨e.2, List.mem_of_find?_eq_some hf, by simpa using List.find?_some hf⟩

/-- A lexeme that is classified by the built-in dictionary is spelled as a tree has it. -/
theorem canonical_eq_word {x : Lexeme} (h : Dictionary.builtin.classify x.text = x.category) :
    x.canonical = x.word := by
  have hnames : ∀ e ∈ Dictionary.builtin.entries, e.1 = .typeWord →
      ∀ word ∈ e.2, (DataType.ofName? word).map (·.name) = some word := by decide
  have hspelled : ∀ e ∈ Dictionary.builtin.entries, ∀ text ∈ e.1.spelling?, e.2 = [text] := by decide
  by_cases hc : x.category = .typeWord
  · obtain ⟨words, he, hword⟩ := Dictionary.mem_of_classify (h.trans hc) nofun
    have hname : (DataType.ofName? x.text).map (·.name) = some x.text := hnames _ he rfl _ hword
    rw [Lexeme.canonical, Lexeme.namedType?_of_eq hc, hname, Option.getD_some, Lexeme.word]
  · rw [canonical_eq rfl hc, Lexeme.word]
    cases htext : x.category.spelling? with
    | none => rfl
    | some text =>
      have hlisted : x.category ≠ .unclassified := fun hu => by simp [hu, Category.spelling?] at htext
      obtain ⟨words, he, hword⟩ := Dictionary.mem_of_classify h hlisted
      obtain rfl : words = [text] := hspelled _ he text htext
      rw [List.mem_singleton] at hword
      rw [Option.getD_some, hword]

/-- So are the lexemes of a text that is read with the built-in dictionary. -/
theorem canonical_of_mem_tokenize {source : String} {x : Lexeme} (hx : x ∈ tokenize .builtin source) :
    x.canonical = x.word := by
  refine canonical_eq_word ?_
  rw [tokenize] at hx
  generalize Position.start = p at hx
  generalize words (normalize source).toList = ws at hx
  induction ws generalizing p with
  | nil => cases hx
  | cons word rest ih =>
    rw [placeWords] at hx
    split at hx
    · exact ih _ hx
    · rcases List.mem_cons.mp hx with rfl | hx
      · rfl
      · exact ih _ hx

/-- A tree derives a list of lexemes: their words are its words, and it is a tree of the grammar. -/
structure FlatProgram.Derives (p : FlatProgram) (program : List Lexeme) : Prop where
  words : program.map (·.canonical) = p.words
  fills : p.fills

end MiniPascal
