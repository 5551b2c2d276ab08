import MiniPascal.Analysis
import MiniPascal.Goal.Lemmas

/-!
# What a step of the analysis can do

- A stack of goals takes a lexeme by the first goal that does not let it pass (`offer_eq_take`, `offer_eq_refuse`,
  `complaint_eq_some`); what no goal takes is let pass (`LetPass`).
- A step is told by the margin and by what the goals do with a word (`State.step_of_inside`, `State.step_of_comment`,
  `State.step_of_word`). If it goes on it skips a lexeme of a comment, opens a comment, or replaces one goal (`Moves`,
  `moves_of_step`); if it halts it has met a stray or a late lexeme, or a goal refuses it (`Halting`, `halting_of_step`).
- `State.after` reads the lexemes of a list and keeps the state behind them; what every step keeps holds at every
  place that a run reaches (`invariant_of_step`).
-/

namespace MiniPascal

variable {scope scope' : ScopeTable} {here : Place} {x : Lexeme} {goals goals' : List Goal} {halt : Halt}

/-! ## The goal that decides -/

/-- The goals of a list let a lexeme pass. -/
def PassAll (scope : ScopeTable) (here : Place) (x : Lexeme) (goals : List Goal) : Prop :=
  ∀ g ∈ goals, g.onLexeme scope here x = .pass

/-- The goals of a list let pass what stands next: a lexeme, or the end of the input. -/
def LetPass (scope : ScopeTable) (here : Place) (goals : List Goal) : Option Lexeme → Prop
  | some x => offer scope here x goals = .pass
  | none => complaint scope here goals = none

/-- A stack takes a lexeme by a goal behind some that let it pass. -/
theorem offer_eq_take (h : offer scope here x goals = .take scope' goals') :
    ∃ passed g rest new, goals = passed ++ g :: rest ∧ PassAll scope here x passed ∧
      g.onLexeme scope here x = .take scope' new ∧ goals' = new ++ rest := by
  induction goals with
  | nil => cases h
  | cons g rest ih =>
    rw [offer] at h
    cases hg : g.onLexeme scope here x with
    | take scope₁ new =>
      rw [hg] at h
      cases h
      exact ⟨[], g, rest, new, rfl, by simp [PassAll], hg, rfl⟩
    | pass =>
      rw [hg] at h
      obtain ⟨passed, g', rest', new, rfl, hp, ht, he⟩ := ih h
      refine ⟨g :: passed, g', rest', new, rfl, fun p hmem => ?_, ht, he⟩
      rcases List.mem_cons.mp hmem with rfl | hmem
      · exact hg
      · exact hp p hmem
    | refuse halt =>
      rw [hg] at h
      cases h

theorem offer_eq_pass_iff : offer scope here x goals = .pass ↔ PassAll scope here x goals := by
  induction goals with
  | nil => exact iff_of_true rfl nofun
  | cons g rest ih =>
    rw [offer, PassAll, List.forall_mem_cons, ← PassAll, ← ih]
    cases g.onLexeme scope here x <;> simp

/-- A stack refuses a lexeme by a goal behind some that let it pass. -/
theorem offer_eq_refuse (h : offer scope here x goals = .refuse halt) :
    ∃ passed g rest, goals = passed ++ g :: rest ∧ PassAll scope here x passed ∧
      g.onLexeme scope here x = .refuse halt := by
  induction goals with
  | nil => cases h
  | cons g rest ih =>
    rw [offer] at h
    cases hg : g.onLexeme scope here x with
    | take scope₁ new =>
      rw [hg] at h
      cases h
    | pass =>
      rw [hg] at h
      obtain ⟨passed, g', rest', rfl, hp, hr⟩ := ih h
      refine ⟨g :: passed, g', rest', rfl, fun p hmem => ?_, hr⟩
      rcases List.mem_cons.mp hmem with rfl | hmem
      · exact hg
      · exact hp p hmem
    | refuse halt' =>
      rw [hg] at h
      cases h
      exact ⟨[], g, rest, rfl, by simp [PassAll], hg⟩

/-- At the end of the input a stack complains by a goal behind some that have no complaint. -/
theorem complaint_eq_some (h : complaint scope here goals = some halt) :
    ∃ passed g rest, goals = passed ++ g :: rest ∧ (∀ p ∈ passed, p.onEnd scope here = none) ∧
      g.onEnd scope here = some halt := by
  obtain ⟨passed, g, rest, he, hg, hp⟩ := List.findSome?_eq_some_iff.mp h
  exact ⟨passed, g, rest, he, hp, hg⟩

/-! ## Steps -/

namespace State

variable {s : State} {opening : Nat} {mark : String} {loose? : Option Nat}

theorem step_of_inside (hm : s.margin = .inside opening mark) :
    s.step x = .ok { s with read := s.read + 1, margin := readInside opening mark s.read x } := by
  rw [step, hm]

/-- Outside comments a comment is opened by any mark but a closing brace, if there is room. -/
theorem step_of_comment (hm : s.margin = .outside loose?) (hc : x.category = .comment) :
    s.step x =
      if s.isFull then .error ⟨.nestingTooDeep, s.read⟩
      else if x.text = closingMark then .error ⟨.missingCommentOpening, s.read⟩
      else .ok { s with read := s.read + 1, margin := .inside s.read x.text } := by
  rw [step, hm]
  exact if_pos hc

/-- Outside comments a word is shown to the goals. -/
theorem step_of_word (hm : s.margin = .outside loose?) (hc : x.category ≠ .comment) :
    s.step x =
      match offer s.scope ⟨s.read, loose?⟩ x s.goals with
      | .take scope goals => .ok ⟨goals, scope, s.read + 1, .outside none⟩
      | .pass => .error ⟨.trailingAfterEnd, s.read⟩
      | .refuse halt => .error halt := by
  rw [step, hm]
  exact if_neg hc

@[simp]
theorem step_mk_comment {scope : ScopeTable} {n : Nat} (hc : x.category = .comment) :
    State.step ⟨goals, scope, n, .outside loose?⟩ x =
      if State.isFull ⟨goals, scope, n, .outside loose?⟩ then .error ⟨.nestingTooDeep, n⟩
      else if x.text = closingMark then .error ⟨.missingCommentOpening, n⟩
      else .ok ⟨goals, scope, n + 1, .inside n x.text⟩ :=
  step_of_comment rfl hc

@[simp]
theorem step_mk_word {scope : ScopeTable} {n : Nat} (hc : x.category ≠ .comment) :
    State.step ⟨goals, scope, n, .outside loose?⟩ x =
      match offer scope ⟨n, loose?⟩ x goals with
      | .take scope goals => .ok ⟨goals, scope, n + 1, .outside none⟩
      | .pass => .error ⟨.trailingAfterEnd, n⟩
      | .refuse halt => .error halt :=
  step_of_word rfl hc

end State

/-- What a step that goes on can do. -/
inductive Moves (s : State) (x : Lexeme) : State → Prop
  /-- A lexeme of a comment is skipped. -/
  | skip {opening : Nat} {mark : String} (hm : s.margin = .inside opening mark) :
      Moves s x { s with read := s.read + 1, margin := readInside opening mark s.read x }
  /-- A comment is opened. -/
  | comment {loose? : Option Nat} (hm : s.margin = .outside loose?) (hc : x.category = .comment)
      (hx : x.text ≠ closingMark) : Moves s x { s with read := s.read + 1, margin := .inside s.read x.text }
  /-- A goal takes the lexeme; the goals above it are met. -/
  | goal {loose? : Option Nat} {passed rest new : List Goal} {g : Goal} {scope : ScopeTable}
      (hm : s.margin = .outside loose?) (hc : x.category ≠ .comment) (hs : s.goals = passed ++ g :: rest)
      (hp : PassAll s.scope ⟨s.read, loose?⟩ x passed)
      (ht : g.onLexeme s.scope ⟨s.read, loose?⟩ x = .take scope new) :
      Moves s x ⟨new ++ rest, scope, s.read + 1, .outside none⟩

theorem moves_of_step {s s' : State} (h : s.step x = .ok s') : Moves s x s' := by
  cases hm : s.margin with
  | inside opening mark =>
    rw [State.step_of_inside hm] at h
    cases h
    exact .skip hm
  | outside loose? =>
    by_cases hc : x.category = .comment
    · rw [State.step_of_comment hm hc] at h
      split at h
      case isTrue => cases h
      case isFalse =>
        split at h
        case isTrue => cases h
        case isFalse hx =>
          cases h
          exact .comment hm hc hx
    · rw [State.step_of_word hm hc] at h
      split at h
      case h_1 hoffer =>
        cases h
        obtain ⟨passed, g, rest, new, hs, hp, hg, rfl⟩ := offer_eq_take hoffer
        exact .goal hm hc hs hp hg
      all_goals cases h

/-- What a halting step has met. -/
inductive Halting (s : State) (x : Lexeme) : Halt → Prop
  /-- A comment, where there is no room for the next statement. -/
  | full {loose? : Option Nat} (hm : s.margin = .outside loose?) (hc : x.category = .comment)
      (hfull : s.isFull = true) : Halting s x ⟨.nestingTooDeep, s.read⟩
  /-- A brace that closes nothing. -/
  | stray {loose? : Option Nat} (hm : s.margin = .outside loose?) (hc : x.category = .comment)
      (hx : x.text = closingMark) : Halting s x ⟨.missingCommentOpening, s.read⟩
  /-- A word behind the end of the program. -/
  | late {loose? : Option Nat} (hm : s.margin = .outside loose?) (hc : x.category ≠ .comment) :
      Halting s x ⟨.trailingAfterEnd, s.read⟩
  /-- A goal that refuses the word; the goals above it are met. -/
  | goal {halt : Halt} {loose? : Option Nat} {passed rest : List Goal} {g : Goal}
      (hm : s.margin = .outside loose?) (hc : x.category ≠ .comment) (hs : s.goals = passed ++ g :: rest)
      (hp : PassAll s.scope ⟨s.read, loose?⟩ x passed)
      (hr : g.onLexeme s.scope ⟨s.read, loose?⟩ x = .refuse halt) : Halting s x halt

theorem halting_of_step {s : State} (h : s.step x = .error halt) : Halting s x halt := by
  cases hm : s.margin with
  | inside opening mark =>
    rw [State.step_of_inside hm] at h
    cases h
  | outside loose? =>
    by_cases hc : x.category = .comment
    · rw [State.step_of_comment hm hc] at h
      split at h
      case isTrue hfull =>
        cases h
        exact .full hm hc hfull
      case isFalse =>
        split at h
        case isTrue hx =>
          cases h
          exact .stray hm hc hx
        case isFalse => cases h
    · rw [State.step_of_word hm hc] at h
      split at h
      case h_1 => cases h
      case h_2 =>
        cases h
        exact .late hm hc
      case h_3 hoffer =>
        cases h
        obtain ⟨passed, g, rest, hs, hp, hg⟩ := offer_eq_refuse hoffer
        exact .goal hm hc hs hp hg

/-- Every step reads one lexeme. -/
theorem Moves.read {s s' : State} (h : Moves s x s') : s'.read = s.read + 1 := by
  cases h <;> rfl

/-! ## Runs -/

namespace State

/-- The state behind the lexemes of a list, or the first breach. -/
def after (s : State) : List Lexeme → Except Halt State
  | [] => .ok s
  | x :: rest =>
    match s.step x with
    | .error halt => .error halt
    | .ok next => next.after rest

theorem after_append (s : State) (xs ys : List Lexeme) :
    s.after (xs ++ ys) =
      match s.after xs with
      | .error halt => .error halt
      | .ok next => next.after ys := by
  induction xs generalizing s with
  | nil => rfl
  | cons x xs ih =>
    rw [List.cons_append, after, after]
    cases s.step x with
    | error halt => rfl
    | ok next => exact ih next

/-- The lexeme that halts stands behind some that are read. -/
theorem after_eq_error {s : State} {program : List Lexeme} (h : s.after program = .error halt) :
    ∃ done x rest r, program = done ++ x :: rest ∧ s.after done = .ok r ∧ r.step x = .error halt := by
  induction program generalizing s with
  | nil => cases h
  | cons x rest ih =>
    rw [after] at h
    cases hs : s.step x with
    | error halt' =>
      rw [hs] at h
      cases h
      exact ⟨[], x, rest, s, rfl, rfl, hs⟩
    | ok next =>
      rw [hs] at h
      obtain ⟨done, y, rest', r, rfl, hr, hy⟩ := ih h
      exact ⟨x :: done, y, rest', r, rfl, by rw [after, hs]; exact hr, hy⟩

/-- A run breaks a rule on its way or at the end of the input. -/
theorem run_fst (s : State) (program : List Lexeme) :
    (s.run program).1 =
      match s.after program with
      | .error halt => some halt
      | .ok last => last.finish := by
  induction program generalizing s with
  | nil => rfl
  | cons x rest ih =>
    rw [run, after]
    cases s.step x with
    | error halt => rfl
    | ok next => exact ih next

end State

/-- A run reaches the lexeme of an index: it has not halted at one before. -/
def Reaches (program : List Lexeme) (index : Nat) (s : State) : Prop :=
  State.initial.after (program.take index) = .ok s

/-- A run that reaches the next lexeme has reached this one and made a step from it. -/
theorem reaches_succ {program : List Lexeme} {index : Nat} {s : State} (h : program[index]? = some x) :
    Reaches program (index + 1) s ↔ ∃ r, Reaches program index r ∧ r.step x = .ok s := by
  rw [Reaches, List.take_add_one, h, State.after_append]
  simp only [Reaches, Option.toList_some]
  cases State.initial.after (program.take index) with
  | error halt => simp
  | ok r => cases hr : r.step x <;> simp [State.after, hr]

/-- A property that the first state has and that every step keeps holds wherever a run gets. -/
theorem invariant_of_step {program : List Lexeme} {P : Nat → State → Prop} (h0 : P 0 .initial)
    (hstep : ∀ {index : Nat} {x : Lexeme} {s s' : State}, program[index]? = some x → P index s → Moves s x s' →
      P (index + 1) s') {index : Nat} {s : State} (hi : index ≤ program.length) (h : Reaches program index s) :
    P index s := by
  induction index generalizing s with
  | zero =>
    cases h
    exact h0
  | succ index ih =>
    have hx := List.getElem?_eq_getElem (Nat.lt_of_succ_le hi)
    obtain ⟨r, hr, hs⟩ := (reaches_succ hx).mp h
    exact hstep hx (ih (by omega) hr) (moves_of_step hs)

/-- The number of lexemes read is the index reached. -/
theorem read_of_reaches {program : List Lexeme} {index : Nat} {s : State} (hi : index ≤ program.length)
    (h : Reaches program index s) : s.read = index :=
  invariant_of_step (P := fun index s => s.read = index) rfl (fun _ hs hm => by rw [hm.read, hs]) hi h

/-! ## Reports -/

theorem lexemeAt_of_getElem? {program : List Lexeme} {i : Nat} (hx : program[i]? = some x) :
    lexemeAt program i = x := by
  rw [lexemeAt, hx, Option.getD_some]

/-- The breach that an analysis reports. -/
def breach? (program : List Lexeme) : Option Halt :=
  (State.initial.run program).1

theorem diagnostic?_analyze (program : List Lexeme) :
    (analyze program).diagnostic? = (breach? program).map (·.diagnostic program) := rfl

/-- A program without a breach is read to its end, where nothing is awaited. -/
theorem breach?_eq_none {program : List Lexeme} (h : breach? program = none) :
    ∃ s, Reaches program program.length s ∧ s.finish = none := by
  rw [breach?, State.run_fst] at h
  split at h
  · cases h
  · rename_i s hs
    exact ⟨s, by rw [Reaches, List.take_length, hs], h⟩

/-- Where a step halts, its breach is reported. -/
theorem breach?_of_step {program : List Lexeme} {i : Nat} {s : State} (hs : Reaches program i s)
    (hx : program[i]? = some x) (h : s.step x = .error halt) : breach? program = some halt := by
  obtain ⟨hi, rfl⟩ := List.getElem?_eq_some_iff.mp hx
  have hafter : State.initial.after program = .error halt := by
    rw [← List.take_append_drop i program, State.after_append, hs, List.drop_eq_getElem_cons hi]
    simp only [State.after, h]
  rw [breach?, State.run_fst, hafter]

/-- A breach is found at a lexeme that the run reaches, or at the end of the input. -/
theorem breach?_eq_some {program : List Lexeme} (h : breach? program = some halt) :
    (∃ index x s, program[index]? = some x ∧ Reaches program index s ∧ s.step x = .error halt) ∨
      ∃ s, Reaches program program.length s ∧ s.finish = some halt := by
  rw [breach?, State.run_fst] at h
  split at h
  case h_1 halt' hafter =>
    cases h
    obtain ⟨done, x, rest, s, rfl, hs, hx⟩ := State.after_eq_error hafter
    refine .inl ⟨done.length, x, s, by simp, ?_, hx⟩
    rw [Reaches, List.take_left]
    exact hs
  case h_2 s hs => exact .inr ⟨s, by rw [Reaches, List.take_length, hs], h⟩

end MiniPascal
