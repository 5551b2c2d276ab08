import MiniPascal.Dictionary.Builtin
import MiniPascal.Proofs.Analysis.Stop
import MiniPascal.Proofs.Literals
import MiniPascal.Proofs.Renaming.Reports

/-!
# Names and literals

A literal has one type and is no name, and wherever a run gets every variable is named by an identifier. So no word is
both a variable and a literal there, and an operand may be looked up in either order (`literals_apart`).

* `isIdentifier_iff`: of the words that have the form of a name only the two truth values are literals.
* `ScopeTable.Named`: every variable is named by an identifier (`named_of_reaches`, `named_analyze`).
* `takeLiteralFirst`, `Goal.onLexemeLiteralFirst`: the look-up in the other order.
-/

namespace MiniPascal

variable {program : List Lexeme} {t : ScopeTable} {s s' : State} {index : Nat} {word : String} {type : DataType}

/-! ## Words -/

theorem isLetter_of_isDigit {c : Char} (h : c.isDigit) : isLetter c = false := by
  simp only [Char.isDigit, Bool.and_eq_true, decide_eq_true_eq, UInt32.le_iff_toNat_le] at h
  have hnine : c.val.toNat ≤ 57 := h.2
  have hbelow (a : Char) (ha : 57 < a.val.toNat) : ¬ a ≤ c := by
    rw [Char.le_def, UInt32.le_iff_toNat_le]
    omega
  have hne (a : Char) (ha : 57 < a.val.toNat) : c ≠ a := by
    rintro rfl
    omega
  simp [isLetter, hbelow 'a' (by decide), hbelow 'A' (by decide), hbelow 'А' (by decide), hne 'Ё' (by decide),
    hne 'ё' (by decide)]

/-- The literals of the other types begin with a digit. -/
theorem eq_bool_of_hasNameForm (h : type.acceptsLiteral word) (hn : hasNameForm word.toList) : type = .bool := by
  cases hcs : word.toList with
  | nil => simp [hasNameForm, hcs] at hn
  | cons c cs =>
    simp only [hasNameForm, hcs, Bool.and_eq_true] at hn
    have hc : c.isDigit = false := by
      cases hd : c.isDigit with
      | false => rfl
      | true => simp [isLetter_of_isDigit hd] at hn
    cases type with
    | int => simp [DataType.acceptsLiteral, DataType.isNumeral, hcs, hc] at h
    | float =>
      -- no digit stands before the point
      simp only [DataType.acceptsLiteral, DataType.isDecimal, hcs, List.takeWhile_cons, hc] at h
      split at h <;> simp [DataType.isNumeral] at h
    | bool => rfl

/-- An identifier is a word of the form of a name other than the two truth values. -/
theorem isIdentifier_iff : isIdentifier word ↔ hasNameForm word.toList ∧ word ≠ "true" ∧ word ≠ "false" := by
  have hbool : DataType.bool.acceptsLiteral word ↔ word = "true" ∨ word = "false" := by simp [DataType.acceptsLiteral]
  rw [← not_or, ← hbool]
  constructor
  · intro h
    refine ⟨(Bool.and_eq_true _ _ ▸ h).1, fun ht => ?_⟩
    cases (ofLiteral?_of_isIdentifier h).symm.trans (DataType.ofLiteral?_eq_some_iff.mpr ht)
  · rintro ⟨hn, ht⟩
    rw [isIdentifier, hn, Bool.true_and, Option.isNone_iff_eq_none]
    cases hl : DataType.ofLiteral? word with
    | none => rfl
    | some type =>
      have htype := DataType.ofLiteral?_eq_some_iff.mp hl
      exact absurd (eq_bool_of_hasNameForm htype hn ▸ htype) ht

/-! ## Variables -/

/-- Every variable of every block, closed ones too, is named by an identifier. -/
def ScopeTable.Named (t : ScopeTable) : Prop :=
  ∀ b ∈ t.blocks, ∀ v ∈ b.declared, isIdentifier v.1

theorem Nameable.named (h : Nameable program s) : s.scope.Named :=
  fun b hb v hv => (h.names b hb v hv).2

theorem Nameable.after {rest : List Lexeme} (hrest : ∀ x ∈ rest, x ∈ program) (h : Nameable program s)
    (ha : s.after rest = .ok s') : Nameable program s' := by
  induction rest generalizing s with
  | nil =>
    cases ha
    exact h
  | cons x rest ih =>
    rw [State.after] at ha
    cases hx : s.step x with
    | error halt =>
      rw [hx] at ha
      cases ha
    | ok next =>
      rw [hx] at ha
      exact ih (fun y hy => hrest y (List.mem_cons_of_mem _ hy)) (h.step (hrest x List.mem_cons_self) hx) ha

/-- Wherever a run gets every variable is named by an identifier. -/
theorem named_of_reaches (h : Reaches program index s) : s.scope.Named :=
  (nameable_initial.after (fun _ hx => List.mem_of_mem_take hx) h).named

/-- So is every variable in the blocks that an analysis leaves. -/
theorem named_analyze (program : List Lexeme) : (analyze program).scope.Named := by
  obtain ⟨_, _, _, hstops⟩ := exists_stops program
  rw [hstops.analyze_eq]
  exact named_of_reaches hstops.reaches

namespace ScopeTable.Named

/-- A word that a block gives a type to is no literal. -/
theorem ofLiteral?_of_lookup? (h : t.Named) {id : Nat} (hl : t.lookup? id word = some type) :
    DataType.ofLiteral? word = none := by
  obtain ⟨b, hb, hdeclared⟩ := Option.bind_eq_some_iff.mp hl
  obtain ⟨before, behind, hsplit, _⟩ := List.lookup_eq_some_iff.mp hdeclared
  exact ofLiteral?_of_isIdentifier (h b (Array.mem_of_getElem? hb) (word, type) (by simp [hsplit]))

/-- Nor is a word that is resolved, from whichever block. -/
theorem ofLiteral?_of_resolve? (h : t.Named) {id : Nat} (hr : t.resolve? id word = some type) :
    DataType.ofLiteral? word = none := by
  obtain ⟨b, _, hl⟩ := List.exists_of_findSome?_eq_some hr
  exact h.ofLiteral?_of_lookup? hl

theorem find?_of_ofLiteral? (h : t.Named) (hl : DataType.ofLiteral? word = some type) : t.find? word = none := by
  cases hfind : t.find? word with
  | none => rfl
  | some found =>
    obtain ⟨id, _, hr⟩ := Option.bind_eq_some_iff.mp hfind
    cases (h.ofLiteral?_of_resolve? hr).symm.trans hl

end ScopeTable.Named

/-! ## The order of the look-up -/

/-- Takes an operand as `takeOperand` does, but looks for a literal before it looks for a variable. -/
def takeLiteralFirst (scope : ScopeTable) (here : Place) (x : Lexeme) (expected : Option DataType) : Reaction :=
  if x.category ≠ .unclassified then here.refuse (.awaitedWord "variable or value")
  else
    match DataType.ofLiteral? x.text, scope.find? x.text with
    | some _, _ => if fits expected none x.text then .take scope [] else here.refuse .incorrectValueType
    | none, some actual =>
      if fits expected (some actual) x.text then .take scope [] else here.refuse .incorrectValueType
    | none, none =>
      if isIdentifier x.text then here.refuse .undefinedVariable else here.refuse (.awaitedWord "variable or value")

/-- What a goal does when operands are looked up in the other order. -/
def Goal.onLexemeLiteralFirst (scope : ScopeTable) (here : Place) (x : Lexeme) : Goal → Reaction
  | .term expected =>
    if x.category = .unary ∨ x.category = .addition then .take scope [.operand expected]
    else takeLiteralFirst scope here x expected
  | .operand expected => takeLiteralFirst scope here x expected
  | g => g.onLexeme scope here x

/-- Where no variable has the name of a literal the order makes no difference. -/
theorem ScopeTable.Named.takeLiteralFirst_eq (h : t.Named) (here : Place) (x : Lexeme) (expected : Option DataType) :
    takeLiteralFirst t here x expected = takeOperand t here x expected := by
  unfold takeLiteralFirst takeOperand
  split
  · rfl
  cases hl : DataType.ofLiteral? x.text with
  | some type => simp [h.find?_of_ofLiteral? hl]
  | none => cases hfind : t.find? x.text <;> simp

/-- Where a variable has the name of a literal the order does make a difference. -/
example :
    let t : ScopeTable := ⟨#[⟨.global, none, [("1", .bool)]⟩], some ScopeTable.global, 0⟩
    takeLiteralFirst t ⟨0, none⟩ ⟨"1", .unclassified, .start⟩ (some .int) = .take t [] ∧
      takeOperand t ⟨0, none⟩ ⟨"1", .unclassified, .start⟩ (some .int) = .refuse ⟨.incorrectValueType, 0⟩ := by
  decide +kernel

theorem ScopeTable.Named.onLexemeLiteralFirst_eq (h : t.Named) (g : Goal) (here : Place) (x : Lexeme) :
    g.onLexemeLiteralFirst t here x = g.onLexeme t here x := by
  cases g <;> simp only [Goal.onLexemeLiteralFirst, Goal.onLexeme, h.takeLiteralFirst_eq]

/-- Names and literals never collide: a word is a literal of one type at most, and of none if it is an identifier; in
every state that a run reaches all variables are named by identifiers, so a word that is resolved is no literal, and no
goal can tell in which order operands are looked up. -/
theorem literals_apart :
    (∀ (word : String) (s t : DataType), s.acceptsLiteral word → t.acceptsLiteral word → s = t) ∧
    (∀ (word : String) (t : DataType), t.acceptsLiteral word ↔ DataType.ofLiteral? word = some t) ∧
    (∀ (word : String), isIdentifier word → ∀ t : DataType, ¬ t.acceptsLiteral word) ∧
    (∀ program : List Lexeme, (analyze program).scope.Named) ∧
    ∀ (program : List Lexeme) (index : Nat) (s : State), Reaches program index s →
      s.scope.Named ∧
      (∀ (id : Nat) (word : String) (type : DataType), s.scope.resolve? id word = some type →
        DataType.ofLiteral? word = none) ∧
      ∀ (g : Goal) (here : Place) (x : Lexeme), g.onLexemeLiteralFirst s.scope here x = g.onLexeme s.scope here x := by
  refine ⟨fun _ _ _ => DataType.eq_of_acceptsLiteral, fun _ _ => DataType.ofLiteral?_eq_some_iff.symm, ?_, named_analyze,
    ?_⟩
  · intro word hn t ht
    cases (ofLiteral?_of_isIdentifier hn).symm.trans (DataType.ofLiteral?_eq_some_iff.mpr ht)
  · intro program index s hs
    have hnamed := named_of_reaches hs
    exact ⟨hnamed, fun _ _ _ => hnamed.ofLiteral?_of_resolve?, hnamed.onLexemeLiteralFirst_eq⟩

/-- A program with names that look like literals, in two blocks, and a literal where one of them is expected. -/
def lookalikes : List Lexeme :=
  tokenize .builtin "program var bool True , tru ; begin [ var int e5 ; tru := true"

theorem literals_apart_lookalikes :
    (DataType.ofLiteral? "4.2" = some .float ∧ ¬ DataType.int.acceptsLiteral "4.2") ∧
    (isIdentifier "True" ∧ ¬ DataType.bool.acceptsLiteral "True") ∧
    (analyze lookalikes).scope.Named ∧
    ∃ s, Reaches lookalikes 15 s ∧
      (s.scope.resolve? 3 "True" = some .bool ∧ DataType.ofLiteral? "True" = none) ∧
      (Goal.operand (some .bool)).onLexemeLiteralFirst s.scope ⟨15, none⟩ (lexemeAt lookalikes 15) =
        (Goal.operand (some .bool)).onLexeme s.scope ⟨15, none⟩ (lexemeAt lookalikes 15) := by
  obtain ⟨apart, found, names, named, reached⟩ := literals_apart
  have hwords : DataType.ofLiteral? "4.2" = some .float ∧ isIdentifier "True" := by decide +kernel
  have hresolve : (State.initial.after (lookalikes.take 15)).toOption.map (·.scope.resolve? 3 "True") =
      some (some .bool) := by
    decide +kernel
  cases hs : State.initial.after (lookalikes.take 15) with
  | error halt =>
    rw [hs] at hresolve
    cases hresolve
  | ok s =>
    rw [hs] at hresolve
    have htrue : s.scope.resolve? 3 "True" = some .bool := Option.some.inj hresolve
    obtain ⟨_, hliteral, horder⟩ := reached lookalikes 15 s hs
    refine ⟨⟨hwords.1, fun h => ?_⟩, ⟨hwords.2, names _ hwords.2 _⟩, named _, s, hs, ⟨htrue, hliteral _ _ _ htrue⟩,
      horder _ _ _⟩
    cases apart _ _ _ h ((found _ _).mpr hwords.1)

end MiniPascal
