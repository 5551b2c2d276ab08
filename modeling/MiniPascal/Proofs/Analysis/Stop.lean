import MiniPascal.Dictionary.Builtin
import MiniPascal.Proofs.Analysis.Refuses

/-!
# Where the analysis stops

An analysis stops at a lexeme that breaks a rule, or at the end of the input (`Stops`, `exists_stops`). Either way it
has looked at nothing behind the place where it stops.

* `cursor`: the index at which the analysis stops.
* `analyze_eq_of_take_cursor`: programs that agree up to the lexeme at which one of them is stopped have the same report.
-/

namespace MiniPascal

variable {program : List Lexeme} {i : Nat} {s : State} {halt : Halt} {x : Lexeme}

/-! ## The last state -/

namespace State

theorem run_append {r : State} {done : List Lexeme} (h : s.after done = .ok r) (rest : List Lexeme) :
    s.run (done ++ rest) = r.run rest := by
  induction done generalizing s with
  | nil =>
    cases h
    rfl
  | cons x done ih =>
    rw [after] at h
    rw [List.cons_append, run]
    cases hs : s.step x with
    | error halt =>
      rw [hs] at h
      cases h
    | ok next =>
      rw [hs] at h
      exact ih h

/-- The index at which a run stops. Where a comment stays open that is the lexeme that opens it. -/
def cursor (s : State) : List Lexeme → Nat
  | [] =>
    match s.margin with
    | .inside opening _ => opening
    | .outside _ => s.read
  | x :: rest =>
    match s.step x with
    | .error _ => s.read
    | .ok next => next.cursor rest

theorem cursor_append {r : State} {done : List Lexeme} (h : s.after done = .ok r) (rest : List Lexeme) :
    s.cursor (done ++ rest) = r.cursor rest := by
  induction done generalizing s with
  | nil =>
    cases h
    rfl
  | cons x done ih =>
    rw [after] at h
    rw [List.cons_append, cursor]
    cases hs : s.step x with
    | error halt =>
      rw [hs] at h
      cases h
    | ok next =>
      rw [hs] at h
      exact ih h

end State

/-- The index at which the analysis of a program stops. -/
def cursor (program : List Lexeme) : Nat :=
  State.initial.cursor program

/-- The analysis reaches an index in a state that has no next one: the lexeme there breaks a rule, or there is none. -/
inductive Stops (program : List Lexeme) (i : Nat) (s : State) : Option Halt → Prop
  | breach {x : Lexeme} {halt : Halt} (hs : Reaches program i s) (hx : program[i]? = some x)
      (h : s.step x = .error halt) : Stops program i s (some halt)
  | finish (hs : Reaches program i s) (hi : i = program.length) : Stops program i s s.finish

theorem Stops.reaches {halt? : Option Halt} (h : Stops program i s halt?) : Reaches program i s := by
  cases h <;> assumption

theorem Stops.le_length {halt? : Option Halt} (h : Stops program i s halt?) : i ≤ program.length := by
  cases h with
  | breach _ hx _ =>
    have := (List.getElem?_eq_some_iff.mp hx).1
    omega
  | finish _ hi => omega

/-- An analysis that stops without a breach has read the whole program. -/
theorem Stops.of_none (h : Stops program i s none) : i = program.length ∧ s.finish = none := by
  generalize hnone : none = halt? at h
  cases h with
  | breach => cases hnone
  | finish _ hi => exact ⟨hi, rfl⟩

/-- Every analysis stops in some state. -/
theorem exists_stops (program : List Lexeme) : ∃ i s halt?, Stops program i s halt? := by
  cases h : State.initial.after program with
  | error halt =>
    obtain ⟨done, x, rest, s, rfl, hs, hx⟩ := State.after_eq_error h
    refine ⟨done.length, s, some halt, .breach ?_ (by simp) hx⟩
    rw [Reaches, List.take_left]
    exact hs
  | ok s => exact ⟨program.length, s, s.finish, .finish (by rw [Reaches, List.take_length, h]) rfl⟩

/-- A run reports what it finds where it stops, and leaves the blocks as they are there. -/
theorem Stops.run_eq {halt? : Option Halt} (h : Stops program i s halt?) :
    State.initial.run program = (halt?, s.scope) := by
  have hrun : State.initial.run program = s.run (program.drop i) := by
    rw [← State.run_append h.reaches, List.take_append_drop]
  rw [hrun]
  cases h with
  | breach _ hx hstep =>
    obtain ⟨hi, rfl⟩ := List.getElem?_eq_some_iff.mp hx
    rw [List.drop_eq_getElem_cons hi, State.run, hstep]
  | finish _ hi =>
    rw [hi, List.drop_length]
    rfl

theorem Stops.breach?_eq {halt? : Option Halt} (h : Stops program i s halt?) : breach? program = halt? := by
  rw [breach?, h.run_eq]

theorem Stops.analyze_eq {halt? : Option Halt} (h : Stops program i s halt?) :
    analyze program = ⟨halt?.map (·.diagnostic program), s.scope⟩ := by
  rw [analyze, h.run_eq]

theorem Stops.cursor_eq {halt? : Option Halt} (h : Stops program i s halt?) :
    cursor program = s.cursor (program.drop i) := by
  rw [cursor, ← State.cursor_append h.reaches, List.take_append_drop]

/-! ## The index of a breach -/

/-- A comment that ends loosely has been read. -/
theorem loose_lt_of_reaches (hi : i ≤ program.length) (h : Reaches program i s) {closing : Nat}
    (hm : s.margin = .outside (some closing)) : closing < i := by
  refine invariant_of_step (P := fun i s => s.read = i ∧ ∀ closing, s.margin = .outside (some closing) → closing < i)
    ⟨rfl, nofun⟩ ?_ hi h |>.2 closing hm
  rintro i x s s' hx ⟨hread, hloose⟩ hmoves
  refine ⟨by rw [hmoves.read, hread], ?_⟩
  intro closing hm'
  cases hmoves with
  | skip _ =>
    simp only [readInside] at hm'
    split at hm'
    · cases hm'
    split at hm'
    · simp only [Margin.outside.injEq, Option.ite_none_left_eq_some, Option.some.injEq] at hm'
      omega
    · cases hm'
  | comment => cases hm'
  | goal => cases hm'

/-- No lexeme behind the one that halts an analysis is at fault. -/
theorem index_le_of_step (hs : Reaches program i s) (hx : program[i]? = some x) (h : s.step x = .error halt) :
    halt.index ≤ i := by
  have hi := (List.getElem?_eq_some_iff.mp hx).1
  have hread := read_of_reaches (Nat.le_of_lt hi) hs
  cases halting_of_step h with
  | full | stray | late => exact Nat.le_of_eq hread
  | @goal _ loose? _ _ _ hm _ _ _ hg =>
    rcases refuses_of_onLexeme hg with ⟨hindex, _⟩ | ⟨_, hloose, _⟩
    · exact Nat.le_of_eq (hindex.trans hread)
    · have hloose : loose? = some halt.index := hloose
      subst hloose
      exact Nat.le_of_lt (loose_lt_of_reaches (Nat.le_of_lt hi) hs hm)

/-! ## Programs that agree up to the cursor -/

/-- An analysis that halts at a lexeme has stopped there. -/
theorem stops_of_cursor (h : breach? program = some halt) (hk : halt.kind ≠ .missingCommentClosing)
    (hc : cursor program < program.length) :
    ∃ s x, Reaches program (cursor program) s ∧ program[cursor program]? = some x ∧ s.step x = .error halt := by
  obtain ⟨i, s, halt?, hstops⟩ := exists_stops program
  have hcursor := hstops.cursor_eq
  have hbreach := hstops.breach?_eq
  rw [h] at hbreach
  have hread := read_of_reaches hstops.le_length hstops.reaches
  cases hstops with
  | breach hs hx hstep =>
    obtain ⟨hi, rfl⟩ := List.getElem?_eq_some_iff.mp hx
    rw [List.drop_eq_getElem_cons hi, State.cursor, hstep] at hcursor
    have hat : cursor program = i := hcursor.trans hread
    cases hbreach
    rw [hat]
    exact ⟨s, program[i], hs, hx, hstep⟩
  | finish _ hi =>
    -- at the end of the input only an open comment has its cursor on a lexeme
    rw [hi, List.drop_length, State.cursor] at hcursor
    unfold State.finish at hbreach
    split at hcursor
    · rename_i hm
      rw [hm] at hbreach
      cases hbreach
      exact absurd rfl hk
    · omega

/-- A program that agrees with another one up to the lexeme at which that one is stopped has the same report, at one of
the lexemes that they share. -/
theorem analyze_eq_of_take_cursor {program other : List Lexeme} {d : Diagnostic} (hd : (analyze program).diagnostic? = some d)
    (hk : d.kind ≠ .missingCommentClosing) (hc : cursor program < program.length)
    (hshare : other.take (cursor program + 1) = program.take (cursor program + 1)) :
    analyze other = analyze program ∧ ∃ j ≤ cursor program, other[j]? = some d.lexeme := by
  rw [diagnostic?_analyze] at hd
  obtain ⟨halt, hbreach, rfl⟩ := Option.map_eq_some_iff.mp hd
  obtain ⟨s, x, hs, hx, hstep⟩ := stops_of_cursor hbreach hk hc
  have hsame (j : Nat) (hj : j ≤ cursor program) : other[j]? = program[j]? := by
    have := congrArg (·[j]?) hshare
    simpa [List.getElem?_take, Nat.lt_succ_of_le hj] using this
  have hs' : Reaches other (cursor program) s := by
    have htake := congrArg (List.take (cursor program)) hshare
    simp only [List.take_take, Nat.le_add_right, Nat.min_eq_left] at htake
    rw [Reaches, htake]
    exact hs
  have hx' : other[cursor program]? = some x := (hsame _ (Nat.le_refl _)).trans hx
  have hle := index_le_of_step hs hx hstep
  have hat : program[halt.index]? = some (lexemeAt program halt.index) := by
    rw [lexemeAt, List.getElem?_eq_getElem (by omega), Option.getD_some]
  have hat' : other[halt.index]? = some (lexemeAt program halt.index) := (hsame _ hle).trans hat
  have hdiagnostic : halt.diagnostic other = halt.diagnostic program := by
    rw [Halt.diagnostic, lexemeAt, hat', Option.getD_some, Halt.diagnostic]
  constructor
  · rw [(Stops.breach hs' hx' hstep).analyze_eq, (Stops.breach hs hx hstep).analyze_eq, Option.map_some, hdiagnostic,
      Option.map_some]
  · exact ⟨halt.index, hle, hat'⟩

/-- A program that declares a name twice. -/
def redeclaring : List Lexeme :=
  tokenize .builtin "program \x7b \x7d var int x , x ; begin x := 1 end"

/-- The same program up to the second declaration, with a stray mark behind it. -/
def redeclaringThenStray : List Lexeme :=
  redeclaring.take 8 ++ [⟨closingMark, .comment, .start⟩]

theorem analyze_redeclaringThenStray :
    ((analyze redeclaring).diagnostic? = some ⟨.alreadyDeclared, lexemeAt redeclaring 7⟩ ∧
      cursor redeclaring < redeclaring.length ∧
      redeclaringThenStray.take (cursor redeclaring + 1) = redeclaring.take (cursor redeclaring + 1)) ∧
    analyze redeclaringThenStray = analyze redeclaring ∧
      ∃ j ≤ cursor redeclaring, redeclaringThenStray[j]? = some (lexemeAt redeclaring 7) := by
  have hcursor : cursor redeclaring = 7 ∧ redeclaring.length = 14 := by decide +kernel
  have hbreach : breach? redeclaring = some ⟨.alreadyDeclared, 7⟩ := by decide +kernel
  have hd : (analyze redeclaring).diagnostic? = some ⟨.alreadyDeclared, lexemeAt redeclaring 7⟩ := by
    rw [diagnostic?_analyze, hbreach]
    rfl
  have hlt : cursor redeclaring < redeclaring.length := by omega
  have hshare : redeclaringThenStray.take (cursor redeclaring + 1) = redeclaring.take (cursor redeclaring + 1) := by
    rw [hcursor.1, redeclaringThenStray, List.take_append_of_le_length (by simp [hcursor.2]), List.take_take]
    rfl
  exact ⟨⟨hd, hlt, hshare⟩, analyze_eq_of_take_cursor hd (by simp) hlt hshare⟩

end MiniPascal
