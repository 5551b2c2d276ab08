import MiniPascal.Proofs.Comments.Deletion

/-!
# Stray braces

Where every comment is marked by braces alone, one scan over the lexemes finds the first brace that has no partner: a
closing one outside comments, or an opening one that no closing one follows (`strayBrace?`). The analysis never gets past
it, and a lexical breach is reported there or nowhere.

* `class_of_refuses`, `class_of_lacks`: what goals miss is never lexical.
* `lexicalAt_run`: a run and the scan over the same lexemes.
* `lexical_of_stray`: the report.
-/

namespace MiniPascal

variable {t : ScopeTable} {x : Lexeme} {g : Goal} {kind : DiagnosticKind} {program rest : List Lexeme} {n : Nat}
  {opening? : Option Nat} {halt stray : Halt} {halt? stray? : Option Halt}

/-! ## The scan -/

/-- The first brace without a partner in lexemes that stand from an index on, perhaps inside the comment that a brace
before them opens: each opening brace is skipped with all that follows it up to the next closing one. -/
def strayBrace? (opening? : Option Nat) (index : Nat) : List Lexeme → Option Halt
  | [] => opening?.map fun opening => ⟨.missingCommentClosing, opening⟩
  | x :: rest =>
    match opening? with
    | some opening => strayBrace? (if x.is .comment closingMark then none else some opening) (index + 1) rest
    | none =>
      if x.is .comment closingMark then some ⟨.missingCommentOpening, index⟩
      else strayBrace? (if x.is .comment openingMark then some index else none) (index + 1) rest

/-- A brace without a partner is the one that is open, or it stands among the lexemes. -/
theorem le_of_strayBrace? (hopening : opening?.getD n ≤ n) (h : strayBrace? opening? n program = some stray) :
    opening?.getD n ≤ stray.index := by
  induction program generalizing opening? n with
  | nil =>
    obtain ⟨opening, rfl, rfl⟩ := Option.map_eq_some_iff.mp h
    exact Nat.le_refl _
  | cons x rest ih =>
    have houtside (h : strayBrace? none (n + 1) rest = some stray) : n + 1 ≤ stray.index := ih (Nat.le_refl _) h
    have hinside {opening : Nat} (hle : opening ≤ n) (h : strayBrace? (some opening) (n + 1) rest = some stray) :
        opening ≤ stray.index := ih (Nat.le_succ_of_le hle) h
    cases opening? with
    | some opening =>
      rw [Option.getD_some] at hopening ⊢
      simp only [strayBrace?] at h
      split at h
      · have := houtside h
        omega
      · exact hinside hopening h
    | none =>
      rw [Option.getD_none]
      simp only [strayBrace?] at h
      split at h
      · cases h
        exact Nat.le_refl _
      split at h
      · exact hinside (Nat.le_refl n) h
      · exact Nat.le_of_succ_le (houtside h)

/-! ## Goals and lexical breaches -/

theorem class_of_refuses (h : g.Refuses t x kind) : kind.diagnosticClass ≠ .lexical := by
  cases h with
  | variableName hn => cases hn <;> simp [DiagnosticKind.diagnosticClass]
  | operator hb | moreStatements _ hb => cases hb <;> simp [DiagnosticKind.diagnosticClass]
  | term ho | operand ho => cases ho <;> simp [DiagnosticKind.diagnosticClass]
  | _ => simp [DiagnosticKind.diagnosticClass]

theorem class_of_lacks (h : g.Lacks t kind) : kind.diagnosticClass ≠ .lexical := by
  cases h <;> simp [DiagnosticKind.diagnosticClass]

/-- A word behind no loose end of a comment is never refused for a brace. -/
theorem class_of_offer {goals : List Goal} (h : offer t ⟨n, none⟩ x goals = .refuse halt) :
    halt.kind.diagnosticClass ≠ .lexical := by
  obtain ⟨_, g, _, _, _, hg⟩ := offer_eq_refuse h
  rcases refuses_of_onLexeme hg with ⟨_, hrefuses⟩ | ⟨_, hloose, _⟩
  · exact class_of_refuses hrefuses
  · cases hloose

theorem class_of_complaint {goals : List Goal} (h : complaint t ⟨n, none⟩ goals = some halt) :
    halt.kind.diagnosticClass ≠ .lexical := by
  obtain ⟨_, g, _, _, _, hg⟩ := complaint_eq_some h
  rcases lacks_of_onEnd hg with ⟨_, hlacks⟩ | ⟨_, hloose, _⟩
  · exact class_of_lacks hlacks
  · cases hloose

/-! ## The run -/

/-- What the scan finds says of a run that stops at an index: it breaks a rule there or before, and a lexical one only at
the brace that was found; if none was found it breaks no lexical rule. -/
def LexicalAt (stray? : Option Halt) (halt? : Option Halt) (cursor : Nat) : Prop :=
  match stray? with
  | some stray => ∃ halt, halt? = some halt ∧ cursor ≤ stray.index ∧ (halt.kind.diagnosticClass = .lexical → halt = stray)
  | none => ∀ halt, halt? = some halt → halt.kind.diagnosticClass ≠ .lexical

theorem lexicalAt_self (stray : Halt) (h : n ≤ stray.index) : LexicalAt (some stray) (some stray) n :=
  ⟨stray, rfl, h, fun _ => rfl⟩

/-- A breach that is not lexical may be met first. -/
theorem lexicalAt_of_class (h : halt.kind.diagnosticClass ≠ .lexical) :
    LexicalAt (strayBrace? none n program) (some halt) n := by
  cases hstray : strayBrace? none n program with
  | some stray => exact ⟨halt, rfl, le_of_strayBrace? (Nat.le_refl n) hstray, fun hk => absurd hk h⟩
  | none =>
    intro _ heq
    cases heq
    exact h

theorem lexicalAt_of_ok {s next : State} (hstep : s.step x = .ok next)
    (h : LexicalAt stray? (next.run rest).1 (next.cursor rest)) :
    LexicalAt stray? (s.run (x :: rest)).1 (s.cursor (x :: rest)) := by
  rw [State.run, State.cursor, hstep]
  exact h

theorem lexicalAt_of_error {s : State} (hstep : s.step x = .error halt) (h : LexicalAt stray? (some halt) s.read) :
    LexicalAt stray? (s.run (x :: rest)).1 (s.cursor (x :: rest)) := by
  rw [State.run, State.cursor, hstep]
  exact h

/-- A run and the scan over the same lexemes. -/
theorem lexicalAt_run (opening? : Option Nat) (hmarks : MarkedByBraces program) (goals : List Goal) (t : ScopeTable) :
    LexicalAt (strayBrace? opening? n program)
      (State.run ⟨goals, t, n, bracedMargin opening?.isSome (opening?.getD 0)⟩ program).1
      (State.cursor ⟨goals, t, n, bracedMargin opening?.isSome (opening?.getD 0)⟩ program) := by
  induction program generalizing opening? n goals t with
  | nil =>
    cases opening? with
    | some opening => exact lexicalAt_self ⟨.missingCommentClosing, opening⟩ (Nat.le_refl _)
    | none => exact fun halt h => class_of_complaint h
  | cons x rest ih =>
    have hrest : MarkedByBraces rest := fun y hy => hmarks y (List.mem_cons_of_mem _ hy)
    have hbrace := hmarks x List.mem_cons_self
    cases opening? with
    | some opening =>
      have hstep : State.step ⟨goals, t, n, bracedMargin true opening⟩ x =
          .ok ⟨goals, t, n + 1, readInside opening openingMark n x⟩ := rfl
      refine lexicalAt_of_ok hstep ?_
      rw [readInside_braces hbrace opening, strayBrace?]
      cases x.is .comment closingMark with
      | true => exact ih none hrest goals t
      | false => exact ih (some opening) hrest goals t
    | none =>
      change LexicalAt _ (State.run ⟨goals, t, n, .outside none⟩ (x :: rest)).1
        (State.cursor ⟨goals, t, n, .outside none⟩ (x :: rest))
      by_cases hc : x.category = .comment
      · cases hfull : State.isFull ⟨goals, t, n, .outside none⟩ with
        | true =>
          have hstep : State.step ⟨goals, t, n, .outside none⟩ x = .error ⟨.nestingTooDeep, n⟩ := by
            simp [hc, hfull]
          exact lexicalAt_of_error hstep (lexicalAt_of_class (by simp [DiagnosticKind.diagnosticClass]))
        | false =>
          have hmark : openingMark ≠ closingMark := by decide
          rcases hbrace hc with htext | htext
          · have hstep : State.step ⟨goals, t, n, .outside none⟩ x = .ok ⟨goals, t, n + 1, .inside n openingMark⟩ := by
              simp [hc, hfull, htext, hmark]
            have hscan : strayBrace? none n (x :: rest) = strayBrace? (some n) (n + 1) rest := by
              simp [strayBrace?, hc, htext, hmark]
            rw [hscan]
            exact lexicalAt_of_ok hstep (ih (some n) hrest goals t)
          · have hstep : State.step ⟨goals, t, n, .outside none⟩ x = .error ⟨.missingCommentOpening, n⟩ := by
              simp [hc, hfull, htext]
            have hscan : strayBrace? none n (x :: rest) = some ⟨.missingCommentOpening, n⟩ := by
              simp [strayBrace?, hc, htext]
            rw [hscan]
            exact lexicalAt_of_error hstep (lexicalAt_self _ (Nat.le_refl n))
      · cases hoffer : offer t ⟨n, none⟩ x goals with
        | take t' goals' =>
          have hstep : State.step ⟨goals, t, n, .outside none⟩ x = .ok ⟨goals', t', n + 1, .outside none⟩ := by
            simp [hc, hoffer]
          have hscan : strayBrace? none n (x :: rest) = strayBrace? none (n + 1) rest := by
            simp [strayBrace?, hc]
          rw [hscan]
          exact lexicalAt_of_ok hstep (ih none hrest goals' t')
        | pass =>
          have hstep : State.step ⟨goals, t, n, .outside none⟩ x = .error ⟨.trailingAfterEnd, n⟩ := by
            simp [hc, hoffer]
          exact lexicalAt_of_error hstep (lexicalAt_of_class (by simp [DiagnosticKind.diagnosticClass]))
        | refuse halt =>
          have hstep : State.step ⟨goals, t, n, .outside none⟩ x = .error halt := by
            simp [hc, hoffer]
          exact lexicalAt_of_error hstep (lexicalAt_of_class (class_of_offer hoffer))

/-! ## The report -/

/-- Where comments are marked by braces alone and one of them has no partner, an analysis breaks a rule there or before,
and a lexical one only there, for want of the partner. Where all have partners no breach is lexical. -/
theorem lexical_of_stray (hmarks : MarkedByBraces program) :
    match strayBrace? none 0 program with
    | some stray => ∃ halt, (analyze program).diagnostic? = some (halt.diagnostic program) ∧
        cursor program ≤ stray.index ∧ (halt.kind.diagnosticClass = .lexical → halt = stray)
    | none => ∀ d, (analyze program).diagnostic? = some d → d.kind.diagnosticClass ≠ .lexical := by
  have hrun : LexicalAt (strayBrace? none 0 program) (breach? program) (cursor program) :=
    lexicalAt_run none hmarks [.programWord] .empty
  rw [diagnostic?_analyze]
  split <;> rename_i hstray <;> rw [hstray] at hrun
  · obtain ⟨halt, hbreach, hcursor, hlexical⟩ := hrun
    exact ⟨halt, by rw [hbreach, Option.map_some], hcursor, hlexical⟩
  · intro d hd
    obtain ⟨halt, hbreach, rfl⟩ := Option.map_eq_some_iff.mp hd
    exact hrun halt hbreach

/-- A program with a comment and, behind it, a closing brace that closes none. -/
def unpartnered : List Lexeme :=
  tokenize .builtin "program var \x7b [ \x7d int x begin x := 1 \x7d end"

theorem lexical_of_unpartnered :
    (MarkedByBraces unpartnered ∧ strayBrace? none 0 unpartnered = some ⟨.missingCommentOpening, 11⟩) ∧
    ∃ halt : Halt, (analyze unpartnered).diagnostic? = some (halt.diagnostic unpartnered) ∧ cursor unpartnered ≤ 11 ∧
      (halt.kind.diagnosticClass = .lexical → halt = ⟨.missingCommentOpening, 11⟩) := by
  have hmarks : MarkedByBraces unpartnered := by
    unfold MarkedByBraces
    decide +kernel
  have hstray : strayBrace? none 0 unpartnered = some ⟨.missingCommentOpening, 11⟩ := by decide +kernel
  have hreport := lexical_of_stray hmarks
  rw [hstray] at hreport
  exact ⟨⟨hmarks, hstray⟩, hreport⟩

end MiniPascal
