import MiniPascal.Goal.Reaction
import MiniPascal.Proofs.Literals

/-!
# Phrases of operands

Expressions and conditions as lists of lexemes: operands, each with a sign or without, and something between each two that
joins them. Which lexemes are operands depends on the variables that are known and on the type that is expected.

* `IsOperand`, `LacksOperand`: what is an operand, and what is wrong with anything else where one is due.
* `IsExpression`, `IsCondition`: the phrases. A condition is a phrase of operands, too (`isCondition_eq`).
* `Misses`: the place where an operand is due and there is none.
* `begins_or_misses`: lexemes begin with a phrase that the next one does not go on with, or they miss an operand.
-/

namespace MiniPascal

variable {t : ScopeTable} {expected : Option DataType} {x : Lexeme} {ws vs : List Lexeme} {joints others : List Category}
  {Part Phrase : List Lexeme → Prop} {kind : DiagnosticKind}

/-! ## Operands -/

/-- The type of a lexeme as an operand: that of the variable that it names, or the one that it is a literal of. -/
inductive OperandType (t : ScopeTable) (x : Lexeme) : DataType → Prop
  | named {type : DataType} (hx : x.category = .unclassified) (htype : t.find? x.text = some type) : OperandType t x type
  | literal {type : DataType} (hx : x.category = .unclassified) (hunknown : t.find? x.text = none)
      (hliteral : type.acceptsLiteral x.text) : OperandType t x type

/-- A lexeme is an operand of the type that is expected, or of any type if none is. -/
def IsOperand (t : ScopeTable) (expected : Option DataType) (x : Lexeme) : Prop :=
  ∃ type, OperandType t x type ∧ ∀ wanted, expected = some wanted → type = wanted

/-- What is wrong where an operand is due and none stands there. -/
inductive LacksOperand (t : ScopeTable) (expected : Option DataType) : Option Lexeme → DiagnosticKind → Prop
  | wrongType {x : Lexeme} {type wanted : DataType} (htype : OperandType t x type) (hwanted : expected = some wanted)
      (hne : type ≠ wanted) : LacksOperand t expected (some x) .incorrectValueType
  | undefined {x : Lexeme} (hx : x.category = .unclassified) (hunknown : ∀ type, ¬OperandType t x type)
      (hname : isIdentifier x.text) : LacksOperand t expected (some x) .undefinedVariable
  | other {x : Lexeme} (hunknown : ∀ type, ¬OperandType t x type)
      (hname : x.category = .unclassified → isIdentifier x.text = false) :
      LacksOperand t expected (some x) (.awaitedWord "variable or value")
  | nothing : LacksOperand t expected none (.awaitedWord "variable or value")

theorem exists_lacksOperand (h : ¬IsOperand t expected x) : ∃ kind, LacksOperand t expected (some x) kind := by
  by_cases hknown : ∃ type, OperandType t x type
  · obtain ⟨type, htype⟩ := hknown
    cases expected with
    | none => exact absurd ⟨type, htype, nofun⟩ h
    | some wanted =>
      refine ⟨_, .wrongType htype rfl fun heq => h ⟨type, htype, fun _ hwanted => ?_⟩⟩
      exact heq.trans (Option.some.inj hwanted)
  · rw [not_exists] at hknown
    by_cases hname : x.category = .unclassified ∧ isIdentifier x.text
    · exact ⟨_, .undefined hname.1 hknown hname.2⟩
    · exact ⟨_, .other hknown fun hx => Bool.eq_false_iff.mpr fun hn => hname ⟨hx, hn⟩⟩

/-! ## Phrases -/

/-- What a sign may be. -/
def signs : List Category := [.unary, .addition]

/-- What joins the terms of an expression. -/
def arithmetic : List Category := [.addition, .multiplication]

/-- What joins the expressions of a condition. -/
def connectives : List Category := [.relation, .logicalOr, .logicalAnd]

/-- An operand with a sign or without. -/
inductive IsTerm (t : ScopeTable) (expected : Option DataType) : List Lexeme → Prop
  | bare {x : Lexeme} (hx : IsOperand t expected x) : IsTerm t expected [x]
  | signed {sign x : Lexeme} (hsign : sign.category ∈ signs) (hx : IsOperand t expected x) : IsTerm t expected [sign, x]

/-- Parts, at least one, with a lexeme between each two that joins them. -/
inductive Joined (Part : List Lexeme → Prop) (joints : List Category) : List Lexeme → Prop
  | one {ws : List Lexeme} (hpart : Part ws) : Joined Part joints ws
  | more {ws vs : List Lexeme} {joint : Lexeme} (hpart : Part ws) (hjoint : joint.category ∈ joints)
      (hrest : Joined Part joints vs) : Joined Part joints (ws ++ joint :: vs)

/-- Terms whose operands are of the type that is expected. -/
def IsExpression (t : ScopeTable) (expected : Option DataType) : List Lexeme → Prop :=
  Joined (IsTerm t expected) arithmetic

/-- Expressions of any type. -/
def IsCondition (t : ScopeTable) : List Lexeme → Prop :=
  Joined (IsExpression t none) connectives

namespace Joined

theorem mono (h : Joined Part joints ws) (hsub : joints ⊆ others) : Joined Part others ws := by
  induction h with
  | one hpart => exact .one hpart
  | more hpart hjoint _ ih => exact .more hpart (hsub hjoint) ih

theorem append (h : Joined Part joints ws) (hx : x.category ∈ joints) (h' : Joined Part joints vs) :
    Joined Part joints (ws ++ x :: vs) := by
  induction h with
  | one hpart => exact .more hpart hx h'
  | more hpart hjoint _ ih =>
    rw [List.append_assoc, List.cons_append]
    exact .more hpart hjoint ih

/-- Phrases that are joined are a phrase of all their parts. -/
theorem joined_iff : Joined (Joined Part joints) others ws ↔ Joined Part (joints ++ others) ws := by
  constructor
  · intro h
    induction h with
    | one hpart => exact hpart.mono (List.subset_append_left joints others)
    | more hpart hjoint _ ih =>
      exact (hpart.mono (List.subset_append_left joints others)).append (List.mem_append_right joints hjoint) ih
  · intro h
    induction h with
    | one hpart => exact .one (.one hpart)
    | more hpart hjoint _ ih =>
      rcases List.mem_append.mp hjoint with hjoint | hjoint
      · -- the joint belongs to the first of the phrases that follow
        cases ih with
        | one hphrase => exact .one (.more hpart hjoint hphrase)
        | more hphrase hother hrest =>
          rw [← List.cons_append, ← List.append_assoc]
          exact .more (.more hpart hjoint hphrase) hother hrest
      · exact .more (.one hpart) hjoint ih

end Joined

theorem isCondition_eq (t : ScopeTable) : IsCondition t = Joined (IsTerm t none) (arithmetic ++ connectives) :=
  funext fun _ => propext Joined.joined_iff

/-! ## Operands that are missed -/

/-- An operand is due behind such lexemes: behind none, or behind a phrase and something that joins more to it. -/
inductive DueBehind (Phrase : List Lexeme → Prop) (joints : List Category) : List Lexeme → Prop
  | nothing : DueBehind Phrase joints []
  | joint {ws : List Lexeme} {joint : Lexeme} (hphrase : Phrase ws) (hjoint : joint.category ∈ joints) :
      DueBehind Phrase joints (ws ++ [joint])

/-- At an index an operand is due, perhaps behind a sign, and none stands there. -/
inductive Misses (t : ScopeTable) (expected : Option DataType) (Phrase : List Lexeme → Prop) (joints : List Category) :
    List Lexeme → Nat → DiagnosticKind → Prop
  | bare {before behind : List Lexeme} {kind : DiagnosticKind} (hdue : DueBehind Phrase joints before)
      (hsign : ∀ x ∈ behind.head?, x.category ∉ signs) (hlacks : LacksOperand t expected behind.head? kind) :
      Misses t expected Phrase joints (before ++ behind) before.length kind
  | signed {before behind : List Lexeme} {sign : Lexeme} {kind : DiagnosticKind} (hdue : DueBehind Phrase joints before)
      (hsign : sign.category ∈ signs) (hlacks : LacksOperand t expected behind.head? kind) :
      Misses t expected Phrase joints (before ++ sign :: behind) (before.length + 1) kind

theorem DueBehind.behind (h : DueBehind (Joined Part joints) joints vs) (hpart : Part ws) (hx : x.category ∈ joints) :
    DueBehind (Joined Part joints) joints (ws ++ x :: vs) := by
  cases h with
  | nothing => exact .joint (.one hpart) hx
  | joint hphrase hjoint =>
    rw [← List.cons_append, ← List.append_assoc]
    exact .joint (.more hpart hx hphrase) hjoint

/-- What is missed in the rest of a phrase is missed in the phrase. -/
theorem Misses.behind {k : Nat} (h : Misses t expected (Joined Part joints) joints vs k kind) (hpart : Part ws)
    (hx : x.category ∈ joints) : ∃ j, Misses t expected (Joined Part joints) joints (ws ++ x :: vs) j kind := by
  cases h with
  | bare hdue hsign hlacks =>
    rw [← List.cons_append, ← List.append_assoc]
    exact ⟨_, .bare (hdue.behind hpart hx) hsign hlacks⟩
  | signed hdue hsign hlacks =>
    rw [← List.cons_append, ← List.append_assoc]
    exact ⟨_, .signed (hdue.behind hpart hx) hsign hlacks⟩

theorem misses_first (hsign : ∀ x ∈ ws.head?, x.category ∉ signs) (hlacks : LacksOperand t expected ws.head? kind) :
    Misses t expected Phrase joints ws 0 kind :=
  @Misses.bare t expected Phrase joints [] ws kind .nothing hsign hlacks

theorem misses_behind_sign (hsign : x.category ∈ signs) (hlacks : LacksOperand t expected ws.head? kind) :
    Misses t expected Phrase joints (x :: ws) 1 kind :=
  @Misses.signed t expected Phrase joints [] ws x kind .nothing hsign hlacks

/-- Lexemes begin with a term, or they miss an operand at once. -/
theorem term_or_misses (t : ScopeTable) (expected : Option DataType) (Phrase : List Lexeme → Prop) (joints : List Category)
    (ws : List Lexeme) :
    (∃ vs us, ws = vs ++ us ∧ IsTerm t expected vs) ∨ ∃ k kind, Misses t expected Phrase joints ws k kind := by
  cases ws with
  | nil => exact .inr ⟨0, _, misses_first nofun .nothing⟩
  | cons x ws =>
    by_cases hsign : x.category ∈ signs
    · cases ws with
      | nil => exact .inr ⟨1, _, misses_behind_sign hsign .nothing⟩
      | cons y ws =>
        by_cases hy : IsOperand t expected y
        · exact .inl ⟨[x, y], ws, rfl, .signed hsign hy⟩
        · obtain ⟨kind, hlacks⟩ := exists_lacksOperand hy
          exact .inr ⟨1, kind, misses_behind_sign hsign hlacks⟩
    · by_cases hx : IsOperand t expected x
      · exact .inl ⟨[x], ws, rfl, .bare hx⟩
      · obtain ⟨kind, hlacks⟩ := exists_lacksOperand hx
        refine .inr ⟨0, kind, misses_first (fun y hy => ?_) hlacks⟩
        exact Option.some.inj hy ▸ hsign

/-- Lexemes begin with a phrase that the next one does not go on with, or they miss an operand. -/
theorem begins_or_misses (t : ScopeTable) (expected : Option DataType) (joints : List Category) (ws : List Lexeme) :
    (∃ vs us, ws = vs ++ us ∧ Joined (IsTerm t expected) joints vs ∧ ∀ x ∈ us.head?, x.category ∉ joints) ∨
      ∃ k kind, Misses t expected (Joined (IsTerm t expected) joints) joints ws k kind := by
  induction hn : ws.length using Nat.strong_induction_on generalizing ws with
  | _ n ih =>
    rcases term_or_misses t expected (Joined (IsTerm t expected) joints) joints ws with ⟨vs, us, rfl, hterm⟩ | hmisses
    · cases us with
      | nil => exact .inl ⟨vs, [], rfl, .one hterm, nofun⟩
      | cons x us =>
        by_cases hx : x.category ∈ joints
        · have hlt : us.length < n := by
            rw [← hn, List.length_append, List.length_cons]
            omega
          rcases ih us.length hlt us rfl with ⟨vs', us', rfl, hphrase, hnext⟩ | ⟨k, kind, hmisses⟩
          · exact .inl ⟨vs ++ x :: vs', us', by simp, .more hterm hx hphrase, hnext⟩
          · obtain ⟨j, hmisses⟩ := hmisses.behind hterm hx
            exact .inr ⟨j, kind, hmisses⟩
        · exact .inl ⟨vs, x :: us, rfl, .one hterm, fun y hy => Option.some.inj hy ▸ hx⟩
    · exact .inr hmisses

end MiniPascal
