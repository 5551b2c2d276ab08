import MiniPascal.Dictionary.Builtin
import MiniPascal.Proofs.Analysis.Step
import MiniPascal.Proofs.Operands.Phrases

/-!
# Reading expressions and conditions

The goals of an expression and of a condition read their phrases and nothing else, whatever is awaited below them: they are
met by a phrase that the next lexeme does not go on with. Where lexemes do not begin with such a phrase, the analysis halts
at the one place where an operand is due and missed.

* `Meets`, `Halts`: what goals do with the lexemes that are still to be read.
* `Continues`: the goals behind an operand that await more of them.
* `Parses`: goals are met by the phrases of a language, and halt where an operand of it is missed.
* `parses_expression_comparison`: the goals of an expression and of a condition.
-/

namespace MiniPascal

variable {t : ScopeTable} {expected : Option DataType} {x : Lexeme} {here : Place} {ws vs us : List Lexeme}
  {joints : List Category} {kind : DiagnosticKind} {g : Goal} {goals rest tail : List Goal} {n k : Nat} {loose? : Option Nat}

/-! ## Operands -/

/-- A lexeme has a type as an operand if it names a variable or is a literal. -/
theorem exists_operandType_iff (hx : x.category = .unclassified) :
    (∃ type, OperandType t x type) ↔ (t.find? x.text).isSome || (DataType.ofLiteral? x.text).isSome := by
  rw [Bool.or_eq_true, Option.isSome_iff_exists, Option.isSome_iff_exists]
  constructor
  · rintro ⟨type, htype⟩
    cases htype with
    | named _ htype => exact .inl ⟨type, htype⟩
    | literal _ _ hliteral => exact .inr ⟨type, DataType.ofLiteral?_eq_some_iff.mpr hliteral⟩
  · intro h
    cases hfind : t.find? x.text with
    | some type => exact ⟨type, .named hx hfind⟩
    | none =>
      rcases h with ⟨type, htype⟩ | ⟨type, hliteral⟩
      · cases hfind.symm.trans htype
      · exact ⟨type, .literal hx hfind (DataType.ofLiteral?_eq_some_iff.mp hliteral)⟩

/-- An operand fits if its type is the one that is expected. -/
theorem OperandType.fits_iff {type : DataType} (h : OperandType t x type) :
    fits expected (t.find? x.text) x.text ↔ ∀ wanted, expected = some wanted → type = wanted := by
  cases expected with
  | none => exact iff_of_true rfl nofun
  | some wanted =>
    have hwanted : (∀ w, some wanted = some w → type = w) ↔ type = wanted :=
      ⟨fun h => h wanted rfl, fun h _ hw => h.trans (Option.some.inj hw)⟩
    rw [hwanted]
    cases h with
    | named hx htype =>
      rw [htype, fits, decide_eq_true_iff, eq_comm]
    | literal hx hunknown hliteral =>
      rw [hunknown, fits]
      exact ⟨DataType.eq_of_acceptsLiteral hliteral, fun h => h ▸ hliteral⟩

theorem OperandType.category_eq {type : DataType} (h : OperandType t x type) : x.category = .unclassified := by
  cases h <;> assumption

theorem IsOperand.category_eq (h : IsOperand t expected x) : x.category = .unclassified :=
  h.elim fun _ htype => htype.1.category_eq

theorem takeOperand_of_isOperand (h : IsOperand t expected x) : takeOperand t here x expected = .take t [] := by
  obtain ⟨type, htype, hwanted⟩ := h
  have hx := htype.category_eq
  rw [takeOperand, if_neg (not_not_intro hx), if_pos ((exists_operandType_iff hx).mp ⟨type, htype⟩),
    if_pos (htype.fits_iff.mpr hwanted)]

theorem takeOperand_of_lacks (h : LacksOperand t expected (some x) kind) :
    takeOperand t here x expected = here.refuse kind := by
  cases h with
  | wrongType htype hwanted hne =>
    have hx := htype.category_eq
    rw [takeOperand, if_neg (not_not_intro hx), if_pos ((exists_operandType_iff hx).mp ⟨_, htype⟩),
      if_neg fun hfits => hne (htype.fits_iff.mp hfits _ hwanted)]
  | undefined hx hunknown hname =>
    rw [takeOperand, if_neg (not_not_intro hx), if_neg (mt (exists_operandType_iff hx).mpr (not_exists.mpr hunknown)),
      if_pos hname]
  | other hunknown hname =>
    by_cases hx : x.category = .unclassified
    · rw [takeOperand, if_neg (not_not_intro hx), if_neg (mt (exists_operandType_iff hx).mpr (not_exists.mpr hunknown)),
        if_neg (Bool.eq_false_iff.mp (hname hx))]
    · rw [takeOperand, if_pos hx]

theorem onLexeme_sign (hx : x.category ∈ signs) :
    Goal.onLexeme t here x (.term expected) = .take t [.operand expected] :=
  if_pos (by simpa [signs] using hx)

theorem onLexeme_term (hx : x.category ∉ signs) :
    Goal.onLexeme t here x (.term expected) = takeOperand t here x expected :=
  if_neg (by simpa [signs] using hx)

/-! ## Single lexemes and terms -/

theorem run_nil : State.run ⟨goals, t, n, .outside loose?⟩ [] = (complaint t ⟨n, loose?⟩ goals, t) := rfl

/-- A lexeme outside comments is shown to the goals. -/
theorem run_word (hx : x.category ≠ .comment) :
    State.run ⟨goals, t, n, .outside loose?⟩ (x :: ws) =
      match offer t ⟨n, loose?⟩ x goals with
      | .take t' new => State.run ⟨new, t', n + 1, .outside none⟩ ws
      | .pass => (some ⟨.trailingAfterEnd, n⟩, t)
      | .refuse halt => (some halt, t) := by
  rw [State.run, State.step_of_word rfl hx]
  cases offer t ⟨n, loose?⟩ x goals <;> rfl

/-- The goal on top takes a lexeme. -/
theorem run_take {new : List Goal} (hx : x.category ≠ .comment)
    (h : g.onLexeme t ⟨n, loose?⟩ x = .take t new) :
    State.run ⟨g :: rest, t, n, .outside loose?⟩ (x :: ws) = State.run ⟨new ++ rest, t, n + 1, .outside none⟩ ws := by
  rw [run_word hx, offer, h]

theorem run_sign (hx : x.category ∈ signs) :
    State.run ⟨.term expected :: rest, t, n, .outside loose?⟩ (x :: ws) =
      State.run ⟨.operand expected :: rest, t, n + 1, .outside none⟩ ws := by
  have hc : x.category ≠ .comment := fun hc => absurd (hc ▸ hx) (by decide)
  exact run_take hc (onLexeme_sign hx)

/-- A goal that awaits an operand is met by one. -/
theorem run_operand (hword : ∀ here, g.onLexeme t here x = takeOperand t here x expected) (hx : IsOperand t expected x) :
    State.run ⟨g :: rest, t, n, .outside loose?⟩ (x :: ws) = State.run ⟨rest, t, n + 1, .outside none⟩ ws := by
  have hc : x.category ≠ .comment := by simp [hx.category_eq]
  exact run_take hc ((hword _).trans (takeOperand_of_isOperand hx))

theorem run_term (h : IsTerm t expected ws) :
    State.run ⟨.term expected :: rest, t, n, .outside loose?⟩ (ws ++ vs) =
      State.run ⟨rest, t, n + ws.length, .outside none⟩ vs := by
  cases h with
  | @bare x hx =>
    have hsign : x.category ∉ signs := by
      rw [hx.category_eq]
      decide
    exact run_operand (fun _ => onLexeme_term hsign) hx
  | signed hsign hx =>
    rw [List.cons_append, run_sign hsign]
    exact run_operand (fun _ => rfl) hx

/-- Where an operand is due and there is none, the analysis halts. -/
theorem run_lacks (hword : ∀ here, ∀ x ∈ ws.head?, g.onLexeme t here x = takeOperand t here x expected)
    (hend : ∀ here, g.onEnd t here = some (here.halt (.awaitedWord "variable or value")))
    (hbare : ∀ x ∈ ws, x.category ≠ .comment) (hlacks : LacksOperand t expected ws.head? kind) :
    State.run ⟨g :: rest, t, n, .outside loose?⟩ ws = (some ⟨kind, n⟩, t) := by
  cases ws with
  | nil =>
    cases hlacks
    rw [run_nil, complaint, List.findSome?_cons, hend]
    rfl
  | cons x ws =>
    rw [run_word (hbare x List.mem_cons_self), offer, hword _ x rfl, takeOperand_of_lacks hlacks]
    rfl

/-! ## Phrases -/

/-- The goals behind an operand take what joins another one to it, and stand behind that one again. Everything else they let
pass. -/
structure Continues (expected : Option DataType) (joints : List Category) (tail : List Goal) : Prop where
  words : .comment ∉ joints
  takes : ∀ {t here} {x : Lexeme}, x.category ∈ joints → offer t here x tail = .take t (.term expected :: tail)
  passes : ∀ {t here} {x? : Option Lexeme}, (∀ x ∈ x?, x.category ∉ joints) → LetPass t here tail x?

theorem onLexeme_joint (hx : x.category ∈ arithmetic) :
    Goal.onLexeme t here x (.moreTerms expected) = .take t (expression expected) :=
  if_pos (by simpa [arithmetic] using hx)

theorem onLexeme_moreTerms (hx : x.category ∉ arithmetic) : Goal.onLexeme t here x (.moreTerms expected) = .pass :=
  if_neg (by simpa [arithmetic] using hx)

theorem onLexeme_connective (hx : x.category ∈ connectives) :
    Goal.onLexeme t here x .moreExpressions = .take t comparison :=
  if_pos (by simpa [connectives] using hx)

theorem onLexeme_moreExpressions (hx : x.category ∉ connectives) : Goal.onLexeme t here x .moreExpressions = .pass :=
  if_neg (by simpa [connectives] using hx)

theorem continues_moreTerms (expected : Option DataType) : Continues expected arithmetic [.moreTerms expected] where
  words := by decide
  takes hx := by
    rw [offer, onLexeme_joint hx]
    rfl
  passes {_ _ x?} hx := by
    cases x? with
    | none => rfl
    | some x =>
      rw [LetPass, offer, onLexeme_moreTerms (hx x rfl)]
      rfl

theorem continues_moreExpressions :
    Continues none (arithmetic ++ connectives) [.moreTerms none, .moreExpressions] where
  words := by decide
  takes {_ _ x} hx := by
    by_cases hjoint : x.category ∈ arithmetic
    · rw [offer, onLexeme_joint hjoint]
      rfl
    · have hconnective := (List.mem_append.mp hx).resolve_left hjoint
      simp only [offer, onLexeme_moreTerms hjoint, onLexeme_connective hconnective]
      rfl
  passes {_ _ x?} hx := by
    cases x? with
    | none => rfl
    | some x =>
      obtain ⟨hjoint, hconnective⟩ := not_or.mp (mt List.mem_append.mpr (hx x rfl))
      simp only [LetPass, offer, onLexeme_moreTerms hjoint, onLexeme_moreExpressions hconnective]

namespace Continues

theorem run_joint (h : Continues expected joints tail) (hx : x.category ∈ joints) :
    State.run ⟨tail ++ rest, t, n, .outside loose?⟩ (x :: ws) =
      State.run ⟨.term expected :: (tail ++ rest), t, n + 1, .outside none⟩ ws := by
  have hc : x.category ≠ .comment := fun hc => h.words (hc ▸ hx)
  rw [run_word hc, offer_append, h.takes hx]
  rfl

theorem run_phrase (h : Continues expected joints tail) (hws : Joined (IsTerm t expected) joints ws) :
    State.run ⟨.term expected :: (tail ++ rest), t, n, .outside loose?⟩ (ws ++ vs) =
      State.run ⟨tail ++ rest, t, n + ws.length, .outside none⟩ vs := by
  induction hws generalizing n loose? with
  | one hterm => exact run_term hterm
  | @more ws us joint hterm hjoint _ ih =>
    rw [List.append_assoc, run_term hterm, List.cons_append, h.run_joint hjoint, ih, List.length_append, List.length_cons]
    congr 2
    omega

/-- What does not go on with a phrase is left to the goals below. -/
theorem run_behind (h : Continues expected joints tail) (hbare : ∀ x ∈ ws, x.category ≠ .comment)
    (hnext : ∀ x ∈ ws.head?, x.category ∉ joints) :
    State.run ⟨tail ++ rest, t, n, .outside loose?⟩ ws = State.run ⟨rest, t, n, .outside loose?⟩ ws := by
  have hpass : LetPass t ⟨n, loose?⟩ tail ws.head? := h.passes hnext
  cases ws with
  | nil =>
    have hnone : complaint t ⟨n, loose?⟩ tail = none := hpass
    rw [run_nil, run_nil, complaint_append, hnone, Option.none_or]
  | cons x ws =>
    have hoffer : offer t ⟨n, loose?⟩ x tail = .pass := hpass
    have hx := hbare x List.mem_cons_self
    rw [run_word hx, run_word hx, offer_append, hoffer]

theorem run_due (h : Continues expected joints tail) (hdue : DueBehind (Joined (IsTerm t expected) joints) joints ws) :
    ∃ loose?', State.run ⟨.term expected :: (tail ++ rest), t, n, .outside loose?⟩ (ws ++ vs) =
      State.run ⟨.term expected :: (tail ++ rest), t, n + ws.length, .outside loose?'⟩ vs := by
  cases hdue with
  | nothing => exact ⟨loose?, rfl⟩
  | joint hphrase hjoint =>
    rw [List.append_assoc, h.run_phrase hphrase, List.singleton_append, h.run_joint hjoint]
    exact ⟨none, by rw [List.length_append, ← Nat.add_assoc]; rfl⟩

end Continues

/-! ## What goals do -/

/-- Goals are met by so many lexemes: whatever is awaited below them, the analysis goes on behind these lexemes with that
alone. -/
def Meets (t : ScopeTable) (goals : List Goal) (ws : List Lexeme) (k : Nat) : Prop :=
  k ≤ ws.length ∧ ∀ rest n loose?,
    State.run ⟨goals ++ rest, t, n, .outside loose?⟩ ws = State.run ⟨rest, t, n + k, .outside none⟩ (ws.drop k)

/-- Goals halt the analysis behind so many lexemes, whatever is awaited below them. -/
def Halts (t : ScopeTable) (goals : List Goal) (ws : List Lexeme) (k : Nat) (kind : DiagnosticKind) : Prop :=
  ∀ rest n loose?, State.run ⟨goals ++ rest, t, n, .outside loose?⟩ ws = (some ⟨kind, n + k⟩, t)

/-- A goal that awaits a comment as a word halts the analysis where it is reached, since no word is one. -/
theorem run_awaiting (text : String) (hbare : ∀ x ∈ ws, x.category ≠ .comment) :
    State.run ⟨[.word .comment text], t, n, .outside loose?⟩ ws = (some ⟨.awaitedWord text, n⟩, t) := by
  cases ws with
  | nil => rfl
  | cons x ws =>
    have hx := hbare x List.mem_cons_self
    have hword : x.is .comment text = false := by simp [hx]
    rw [run_word hx, offer, Goal.onLexeme, hword]
    rfl

/-- Awaited below goals that are met, such a word tells by how many lexemes they are. -/
theorem Meets.awaits (h : Meets t goals ws k) (text : String) (hbare : ∀ x ∈ ws, x.category ≠ .comment) :
    State.run ⟨goals ++ [.word .comment text], t, 0, .outside none⟩ ws = (some ⟨.awaitedWord text, k⟩, t) := by
  rw [h.2, run_awaiting text fun x hx => hbare x (List.mem_of_mem_drop hx), Nat.zero_add]

theorem Meets.unique {j : Nat} (hbare : ∀ x ∈ ws, x.category ≠ .comment) (h : Meets t goals ws k)
    (h' : Meets t goals ws j) : k = j := by
  have hruns := (h.awaits "" hbare).symm.trans (h'.awaits "" hbare)
  simpa using hruns

theorem Halts.unique {j : Nat} {other : DiagnosticKind} (h : Halts t goals ws k kind) (h' : Halts t goals ws j other) :
    k = j ∧ kind = other := by
  have hruns := (h [] 0 none).symm.trans (h' [] 0 none)
  simpa [and_comm] using hruns

/-- Goals that are met do not halt: what halts the analysis behind them is told from what is awaited there. -/
theorem Meets.not_halts {j : Nat} (hbare : ∀ x ∈ ws, x.category ≠ .comment) (h : Meets t goals ws k) :
    ¬Halts t goals ws j kind := by
  intro hhalts
  have hkind (text : String) : .awaitedWord text = kind := by
    have hruns := (h.awaits text hbare).symm.trans (hhalts _ 0 none)
    simp only [Prod.mk.injEq, Option.some.injEq, Halt.mk.injEq] at hruns
    exact hruns.1.1
  exact absurd ((hkind "a").trans (hkind "b").symm) (by decide)

/-! ## Phrases and nothing else -/

theorem Continues.meets (h : Continues expected joints tail) (hbare : ∀ x ∈ us, x.category ≠ .comment)
    (hphrase : Joined (IsTerm t expected) joints ws) (hnext : ∀ x ∈ us.head?, x.category ∉ joints) :
    Meets t (.term expected :: tail) (ws ++ us) ws.length := by
  refine ⟨by simp, fun rest n loose? => ?_⟩
  rw [List.cons_append, h.run_phrase hphrase, h.run_behind hbare hnext, List.drop_left]

theorem Continues.halts (h : Continues expected joints tail) (hbare : ∀ x ∈ ws, x.category ≠ .comment)
    (hmisses : Misses t expected (Joined (IsTerm t expected) joints) joints ws k kind) :
    Halts t (.term expected :: tail) ws k kind := by
  intro rest n loose?
  rw [List.cons_append]
  cases hmisses with
  | bare hdue hsign hlacks =>
    obtain ⟨loose?', hrun⟩ := h.run_due hdue
    have hbehind := fun x hx => hbare x (List.mem_append_right _ hx)
    rw [hrun, run_lacks (fun _ x hx => onLexeme_term (hsign x hx)) (fun _ => rfl) hbehind hlacks]
  | signed hdue hsign hlacks =>
    obtain ⟨loose?', hrun⟩ := h.run_due hdue
    have hbehind := fun x hx => hbare x (List.mem_append_right _ (List.mem_cons_of_mem _ hx))
    rw [hrun, run_sign hsign, run_lacks (fun _ _ _ => rfl) (fun _ => rfl) hbehind hlacks, Nat.add_assoc]

/-- Goals are met by the phrases of a language that the next lexeme does not go on with, and by nothing else; they halt the
analysis where an operand is missed, of which there is one place at most, and nowhere else; and they do one or the other. -/
structure Parses (t : ScopeTable) (expected : Option DataType) (goals : List Goal) (Phrase : List Lexeme → Prop)
    (joints : List Category) (ws : List Lexeme) : Prop where
  meets_iff : ∀ k, Meets t goals ws k ↔
    k ≤ ws.length ∧ Phrase (ws.take k) ∧ ∀ x, ws[k]? = some x → x.category ∉ joints
  halts_iff : ∀ k kind, Halts t goals ws k kind ↔ Misses t expected Phrase joints ws k kind
  misses_unique : ∀ {j k other kind}, Misses t expected Phrase joints ws j other →
    Misses t expected Phrase joints ws k kind → j = k ∧ other = kind
  meets_or_halts : (∃ k, Meets t goals ws k) ∨ ∃ k kind, Halts t goals ws k kind

theorem Continues.parses (h : Continues expected joints tail) (hbare : ∀ x ∈ ws, x.category ≠ .comment) :
    Parses t expected (.term expected :: tail) (Joined (IsTerm t expected) joints) joints ws := by
  have hmet (k : Nat) : (k ≤ ws.length ∧ Joined (IsTerm t expected) joints (ws.take k) ∧
      ∀ x, ws[k]? = some x → x.category ∉ joints) → Meets t (.term expected :: tail) ws k := by
    rintro ⟨hk, hphrase, hnext⟩
    have hbehind : ∀ x ∈ ws.drop k, x.category ≠ .comment := fun x hx => hbare x (List.mem_of_mem_drop hx)
    have hmeets := h.meets hbehind hphrase fun x hx => hnext x (List.head?_drop ▸ hx)
    rwa [List.take_append_drop, List.length_take_of_le hk] at hmeets
  have hunique {j k : Nat} {other kind : DiagnosticKind}
      (hj : Misses t expected (Joined (IsTerm t expected) joints) joints ws j other)
      (hk : Misses t expected (Joined (IsTerm t expected) joints) joints ws k kind) : j = k ∧ other = kind :=
    (h.halts hbare hj).unique (h.halts hbare hk)
  rcases begins_or_misses t expected joints ws with ⟨vs, us, rfl, hphrase, hnext⟩ | ⟨k, kind, hmisses⟩
  · have hmeets := h.meets (fun x hx => hbare x (List.mem_append_right vs hx)) hphrase hnext
    refine ⟨fun k => ⟨fun hk => ?_, hmet k⟩, fun k kind => ⟨fun hhalts => ?_, h.halts hbare⟩, hunique, .inl ⟨_, hmeets⟩⟩
    · obtain rfl := hk.unique hbare hmeets
      refine ⟨hmeets.1, by rwa [List.take_left], fun x hx => hnext x ?_⟩
      rwa [← List.head?_drop, List.drop_left] at hx
    · exact absurd hhalts (hmeets.not_halts hbare)
  · have hhalts := h.halts hbare hmisses
    refine ⟨fun k => ⟨fun hk => ?_, hmet k⟩, fun k kind => ⟨fun hother => ?_, h.halts hbare⟩, hunique,
      .inr ⟨k, kind, hhalts⟩⟩
    · exact absurd hhalts (hk.not_halts hbare)
    · obtain ⟨rfl, rfl⟩ := hother.unique hhalts
      exact hmisses

/-- The goals of an expression read just an expression, and those of a comparison just a condition. -/
theorem parses_expression_comparison (expected : Option DataType) (hbare : ∀ x ∈ ws, x.category ≠ .comment) :
    Parses t expected (expression expected) (IsExpression t expected) arithmetic ws ∧
      Parses t none comparison (IsCondition t) (arithmetic ++ connectives) ws := by
  refine ⟨(continues_moreTerms expected).parses hbare, ?_⟩
  rw [isCondition_eq]
  exact continues_moreExpressions.parses hbare

/-- The blocks of a program with one variable. -/
def oneVariable : ScopeTable :=
  (analyze (tokenize .builtin "program var int x begin end")).scope

/-- A condition that begins with a sum and breaks off. -/
def unfinished : List Lexeme :=
  tokenize .builtin "x + - 2 < x and"

/-- As a value the sum ends before the relation; in the condition an operand is missed behind the last connective. -/
theorem parses_unfinished :
    (∀ x ∈ unfinished, x.category ≠ .comment) ∧ Meets oneVariable (expression (some .int)) unfinished 4 ∧
      Halts oneVariable comparison unfinished 7 (.awaitedWord "variable or value") := by
  let minus : Lexeme := ⟨"-", .addition, ⟨1, 3⟩⟩
  let plus : Lexeme := ⟨"+", .addition, ⟨1, 2⟩⟩
  let less : Lexeme := ⟨"<", .relation, ⟨1, 5⟩⟩
  let both : Lexeme := ⟨"and", .logicalAnd, ⟨1, 7⟩⟩
  let first : Lexeme := ⟨"x", .unclassified, ⟨1, 1⟩⟩
  let second : Lexeme := ⟨"2", .unclassified, ⟨1, 4⟩⟩
  let last : Lexeme := ⟨"x", .unclassified, ⟨1, 6⟩⟩
  have hunfinished : unfinished = [first, plus, minus, second, less, last, both] := by decide +kernel
  have hbare : ∀ x ∈ unfinished, x.category ≠ .comment := by
    rw [hunfinished]
    decide
  have hfind : oneVariable.find? "x" = some .int ∧ oneVariable.find? "2" = none := by decide +kernel
  have hsum (expected : Option DataType) (h : ∀ wanted, expected = some wanted → .int = wanted) :
      IsExpression oneVariable expected [first, plus, minus, second] := by
    have hleft : IsTerm oneVariable expected [first] := .bare ⟨.int, .named rfl hfind.1, h⟩
    have hplus : plus.category ∈ arithmetic := by decide
    have hright : IsTerm oneVariable expected [minus, second] :=
      .signed (by decide) ⟨.int, .literal rfl hfind.2 (by decide), h⟩
    exact Joined.more hleft hplus (.one hright)
  have hphrase : IsCondition oneVariable [first, plus, minus, second, less, last] := by
    have hless : less.category ∈ connectives := by decide
    have hlast : IsTerm oneVariable none [last] := .bare ⟨.int, .named rfl hfind.1, nofun⟩
    exact Joined.more (hsum none nofun) hless (.one (.one hlast))
  have hdue : DueBehind (IsCondition oneVariable) (arithmetic ++ connectives) unfinished := by
    have hboth : both.category ∈ arithmetic ++ connectives := by decide
    rw [hunfinished]
    exact .joint hphrase hboth
  obtain ⟨hexpression, hcondition⟩ := parses_expression_comparison (t := oneVariable) (some .int) hbare
  refine ⟨hbare, (hexpression.meets_iff 4).mpr ?_, (hcondition.halts_iff 7 _).mpr ?_⟩
  · rw [hunfinished]
    refine ⟨by decide, hsum _ fun _ => Option.some.inj, fun x hx => ?_⟩
    obtain rfl := Option.some.inj hx
    decide
  · have hmisses := Misses.bare hdue (show ∀ x ∈ ([] : List Lexeme).head?, x.category ∉ signs from nofun)
      (.nothing : LacksOperand oneVariable none _ _)
    rwa [List.append_nil, hunfinished] at hmisses

end MiniPascal
