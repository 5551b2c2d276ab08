import MiniPascal.Dictionary.Builtin
import MiniPascal.Proofs.Analysis.Stop

/-!
# Programs without their comments

Where every comment is marked by braces alone, deleting the comments of a program changes neither what is reported nor
the blocks.

* `withoutComments?`: the lexemes that are left when the comments are deleted.
* `moved_onLexeme`: a goal treats a lexeme alike at every index, as long as no loose end of a comment stands before it.
* `run_withoutComments`: a run and the run over what is left go through the same goals and scope tables, and break the
  same rule at the same lexeme (`SameBreach`).
* `analyze_withoutComments`: the two reports.
-/

namespace MiniPascal

variable {t : ScopeTable} {x : Lexeme} {program rest left : List Lexeme} {inside : Bool} {n m : Nat}

/-! ## Deleting comments -/

/-- The lexemes that are left when each opening brace is deleted with all that follows it up to the next closing one.
There are none if a closing brace is left over or a comment is not closed. -/
def withoutComments? : Bool → List Lexeme → Option (List Lexeme)
  | inside, [] => if inside then none else some []
  | true, x :: rest => withoutComments? (!x.is .comment closingMark) rest
  | false, x :: rest =>
    if x.is .comment openingMark then withoutComments? true rest
    else if x.is .comment closingMark then none
    else (withoutComments? false rest).map (x :: ·)

/-- Every mark of a comment is a brace. -/
def MarkedByBraces (program : List Lexeme) : Prop :=
  ∀ x ∈ program, x.category = .comment → x.text = openingMark ∨ x.text = closingMark

/-! ## Reactions at other indices -/

/-- The reaction to the same lexeme at another index. -/
def Reaction.moved (index : Nat) : Reaction → Reaction
  | .refuse halt => .refuse ⟨halt.kind, index⟩
  | r => r

section Moved

variable {context : Context} {type : DataType} {expected : Option DataType} {goals : List Goal}

@[simp]
theorem moved_take : (Reaction.take t goals).moved m = .take t goals := rfl

@[simp]
theorem moved_pass : Reaction.pass.moved m = .pass := rfl

@[simp]
theorem moved_refuse (halt : Halt) : (Reaction.refuse halt).moved m = .refuse ⟨halt.kind, m⟩ := rfl

@[simp]
theorem moved_ite {p : Prop} [Decidable p] (r r' : Reaction) :
    (if p then r else r').moved m = if p then r.moved m else r'.moved m :=
  apply_ite _ p r r'

theorem moved_declareName : declareName t ⟨m, none⟩ x type = (declareName t ⟨n, none⟩ x type).moved m := by
  cases hcurrent : t.current? with
  | none => simp [declareName, hcurrent]
  | some block => cases hd : t.declare block x.text type <;> simp [declareName, hcurrent, hd]

theorem moved_assignTo : assignTo t ⟨m, none⟩ x = (assignTo t ⟨n, none⟩ x).moved m := by
  cases h : x.resolve? t <;> simp [assignTo, h]

theorem moved_takeOperand :
    takeOperand t ⟨m, none⟩ x expected = (takeOperand t ⟨n, none⟩ x expected).moved m := by
  simp [takeOperand]

@[simp]
theorem moved_before (r : Reaction) (goals : List Goal) : (r.moved m).before goals = (r.before goals).moved m := by
  cases r <;> rfl

theorem moved_beginStatement :
    beginStatement t ⟨m, none⟩ x context = (beginStatement t ⟨n, none⟩ x context).moved m := by
  unfold beginStatement
  cases x.category <;> simp [moved_assignTo (n := n) (m := m)]

/-- A goal treats a lexeme alike at every index. -/
theorem moved_onLexeme (g : Goal) : g.onLexeme t ⟨m, none⟩ x = (g.onLexeme t ⟨n, none⟩ x).moved m := by
  cases g with
  | operator context => exact moved_beginStatement
  | moreStatements context => simp [moved_beginStatement (n := n) (m := m)]
  | variableName type => exact moved_declareName
  | target => exact moved_assignTo
  | operand expected => exact moved_takeOperand
  | term expected => simp [moved_takeOperand (n := n) (m := m)]
  | typeName => cases h : x.namedType? <;> simp [h]
  | _ => simp

theorem moved_offer (goals : List Goal) : offer t ⟨m, none⟩ x goals = (offer t ⟨n, none⟩ x goals).moved m := by
  induction goals with
  | nil => rfl
  | cons g rest ih =>
    rw [offer, offer, moved_onLexeme (n := n)]
    cases g.onLexeme t ⟨n, none⟩ x with
    | pass => exact ih
    | _ => rfl

theorem moved_endStatement :
    endStatement t ⟨m, none⟩ context = (endStatement t ⟨n, none⟩ context).map fun halt => ⟨halt.kind, m⟩ := by
  unfold endStatement
  split
  · rfl
  · split <;> rfl

theorem moved_onEnd (g : Goal) : g.onEnd t ⟨m, none⟩ = (g.onEnd t ⟨n, none⟩).map fun halt => ⟨halt.kind, m⟩ := by
  cases g with
  | operator context => exact moved_endStatement
  | moreStatements context =>
    simp only [Goal.onEnd]
    split
    · exact moved_endStatement
    · rfl
  | room depth =>
    simp only [Goal.onEnd]
    split <;> rfl
  | _ => rfl

/-- At the end of the input a stack complains alike at every index. -/
theorem complaint_alike (t : ScopeTable) (goals : List Goal) :
    ∃ kind? : Option DiagnosticKind, ∀ n, complaint t ⟨n, none⟩ goals = kind?.map fun kind => ⟨kind, n⟩ := by
  refine ⟨(complaint t ⟨0, none⟩ goals).map (·.kind), fun n => ?_⟩
  rw [complaint, complaint, Option.map_map, List.map_findSome?]
  congr 1
  funext g
  exact moved_onEnd g

/-- A word outside comments is read alike at every index. -/
theorem step_alike (t : ScopeTable) (goals : List Goal) (hx : x.category ≠ .comment) :
    (∃ t' goals', ∀ n, State.step ⟨goals, t, n, .outside none⟩ x = .ok ⟨goals', t', n + 1, .outside none⟩) ∨
      ∃ kind, ∀ n, State.step ⟨goals, t, n, .outside none⟩ x = .error ⟨kind, n⟩ := by
  have hoffer (n : Nat) := moved_offer (t := t) (x := x) (n := 0) (m := n) goals
  cases h : offer t ⟨0, none⟩ x goals with
  | take t' goals' =>
    refine .inl ⟨t', goals', fun n => ?_⟩
    simp [hx, hoffer n, h]
  | pass =>
    refine .inr ⟨.trailingAfterEnd, fun n => ?_⟩
    simp [hx, hoffer n, h]
  | refuse halt =>
    refine .inr ⟨halt.kind, fun n => ?_⟩
    simp [hx, hoffer n, h]

end Moved

/-! ## The two runs -/

/-- Breaches of a program and of what is left of it, of which so many lexemes have been read before: none, or of the same
rule at the same lexeme or at the end of both. A missing room is reported at a comment before the lexeme, if there is
one. -/
inductive SameBreach (inside : Bool) (program left : List Lexeme) (n m : Nat) : Option Halt → Option Halt → Prop
  | nothing : SameBreach inside program left n m none none
  | tooDeep {i j : Nat} :
      SameBreach inside program left n m (some ⟨.nestingTooDeep, n + i⟩) (some ⟨.nestingTooDeep, m + j⟩)
  | atEnd {kind : DiagnosticKind} :
      SameBreach inside program left n m (some ⟨kind, n + program.length⟩) (some ⟨kind, m + left.length⟩)
  | word {kind : DiagnosticKind} {i j : Nat} {x : Lexeme} (hx : program[i]? = some x) (hx' : left[j]? = some x)
      (hbefore : withoutComments? inside (program.take i) = some (left.take j)) :
      SameBreach inside program left n m (some ⟨kind, n + i⟩) (some ⟨kind, m + j⟩)

variable {halt? halt?' : Option Halt}

/-- A lexeme of a comment may be put before the first program. -/
theorem SameBreach.skip {inside' : Bool} (h : SameBreach inside rest left (n + 1) m halt? halt?')
    (hx : ∀ rest, withoutComments? inside' (x :: rest) = withoutComments? inside rest) :
    SameBreach inside' (x :: rest) left n m halt? halt?' := by
  cases h with
  | nothing => exact .nothing
  | @tooDeep i j =>
    rw [Nat.add_right_comm n 1 i]
    exact .tooDeep (i := i + 1)
  | atEnd =>
    rw [Nat.add_right_comm n 1, Nat.add_assoc]
    exact .atEnd
  | @word kind i j y hy hy' hbefore =>
    rw [Nat.add_right_comm n 1 i]
    exact .word (i := i + 1) hy hy' ((hx _).trans hbefore)

/-- A word may be put before both programs. -/
theorem SameBreach.cons (h : SameBreach false rest left (n + 1) (m + 1) halt? halt?')
    (hx : ∀ rest, withoutComments? false (x :: rest) = (withoutComments? false rest).map (x :: ·)) :
    SameBreach false (x :: rest) (x :: left) n m halt? halt?' := by
  cases h with
  | nothing => exact .nothing
  | @tooDeep i j =>
    rw [Nat.add_right_comm n 1 i, Nat.add_right_comm m 1 j]
    exact .tooDeep (i := i + 1) (j := j + 1)
  | atEnd =>
    rw [Nat.add_right_comm n 1, Nat.add_assoc, Nat.add_right_comm m 1, Nat.add_assoc]
    exact .atEnd
  | @word kind i j y hy hy' hbefore =>
    rw [Nat.add_right_comm n 1 i, Nat.add_right_comm m 1 j]
    refine .word (i := i + 1) (j := j + 1) hy hy' ?_
    rw [List.take_succ_cons, hx, hbefore, Option.map_some, List.take_succ_cons]

/-- A run that has no room for the next statement halts, whatever comes. -/
theorem run_of_isFull {s : State} {loose? : Option Nat} (hfull : s.isFull = true) (hm : s.margin = .outside loose?)
    (program : List Lexeme) : s.run program = (some ⟨.nestingTooDeep, s.read⟩, s.scope) := by
  obtain ⟨goals, scope, read, margin⟩ := s
  obtain rfl : margin = .outside loose? := hm
  obtain ⟨depth, goals, rfl, hroom⟩ : ∃ depth rest, goals = .room depth :: rest ∧ scope.hasRoom depth = false := by
    unfold State.isFull at hfull
    split at hfull
    · rename_i depth rest hgoals
      exact ⟨depth, rest, hgoals, by simpa using hfull⟩
    · cases hfull
  cases program with
  | nil => simp [State.run, State.finish, complaint, Goal.onEnd, hroom]
  | cons x rest =>
    have hstep : State.step ⟨.room depth :: goals, scope, read, .outside loose?⟩ x = .error ⟨.nestingTooDeep, read⟩ := by
      by_cases hx : x.category = .comment
      · simp [hx, State.isFull, hroom]
      · simp [hx, hroom]
    rw [State.run, hstep]

/-- Whether a comment is open, where all marks are braces. -/
def bracedMargin (inside : Bool) (opening : Nat) : Margin :=
  if inside then .inside opening openingMark else .outside none

theorem readInside_braces (hx : x.category = .comment → x.text = openingMark ∨ x.text = closingMark) (opening : Nat) :
    readInside opening openingMark n x = bracedMargin (!x.is .comment closingMark) opening := by
  unfold readInside
  split
  · rename_i hc
    simp [hc, bracedMargin]
  rename_i hc
  have hc := Decidable.not_not.mp hc
  split
  · rename_i htext
    simp [hc, htext, bracedMargin]
  · rename_i htext
    have hopening := (hx hc).resolve_right htext
    rw [hopening] at htext ⊢
    simp [hc, hopening, htext, bracedMargin]

/-- What a lexeme outside comments is: an opening brace, or a word that is left. -/
theorem withoutComments?_cons (hx : x.category = .comment → x.text = openingMark ∨ x.text = closingMark)
    (h : withoutComments? false (x :: rest) = some left) :
    (x.is .comment openingMark = true ∧
      ∀ rest, withoutComments? false (x :: rest) = withoutComments? true rest) ∨
    (x.category ≠ .comment ∧
      ∀ rest, withoutComments? false (x :: rest) = (withoutComments? false rest).map (x :: ·)) := by
  by_cases hopening : x.is .comment openingMark = true
  · exact .inl ⟨hopening, fun _ => if_pos hopening⟩
  have hclosing : ¬ x.is .comment closingMark = true := by
    intro hclosing
    rw [withoutComments?, if_neg hopening, if_pos hclosing] at h
    cases h
  refine .inr ⟨?_, fun _ => by rw [withoutComments?, if_neg hopening, if_neg hclosing]⟩
  intro hc
  rw [Lexeme.is_iff] at hopening hclosing
  rcases hx hc with htext | htext
  · exact hopening ⟨hc, htext⟩
  · exact hclosing ⟨hc, htext⟩

/-- A run over a program and a run over what is left of it leave the same blocks and the same breach. -/
theorem run_withoutComments (goals : List Goal) (opening : Nat) (hmarks : MarkedByBraces program)
    (hleft : withoutComments? inside program = some left) :
    (State.run ⟨goals, t, n, bracedMargin inside opening⟩ program).2 = (State.run ⟨goals, t, m, .outside none⟩ left).2 ∧
      SameBreach inside program left n m (State.run ⟨goals, t, n, bracedMargin inside opening⟩ program).1
        (State.run ⟨goals, t, m, .outside none⟩ left).1 := by
  induction program generalizing inside left goals t n m opening with
  | nil =>
    cases inside with
    | true => cases hleft
    | false =>
      cases hleft
      obtain ⟨kind?, hkind⟩ := complaint_alike t goals
      refine ⟨rfl, ?_⟩
      simp only [State.run, State.finish, bracedMargin, Bool.false_eq_true, if_false, hkind]
      cases kind? with
      | none => exact .nothing
      | some kind => exact .atEnd
  | cons x rest ih =>
    have hrest : MarkedByBraces rest := fun y hy => hmarks y (List.mem_cons_of_mem _ hy)
    have hbrace := hmarks x List.mem_cons_self
    cases inside with
    | true =>
      have hstep : State.step ⟨goals, t, n, bracedMargin true opening⟩ x =
          .ok ⟨goals, t, n + 1, bracedMargin (!x.is .comment closingMark) opening⟩ := by
        rw [← readInside_braces hbrace]
        rfl
      rw [State.run, hstep]
      obtain ⟨hscope, hbreach⟩ := ih goals opening hrest hleft
      exact ⟨hscope, hbreach.skip fun _ => rfl⟩
    | false =>
      change (State.run ⟨goals, t, n, .outside none⟩ (x :: rest)).2 = _ ∧
        SameBreach false (x :: rest) left n m (State.run ⟨goals, t, n, .outside none⟩ (x :: rest)).1 _
      cases hfull : State.isFull ⟨goals, t, n, .outside none⟩ with
      | true =>
        -- for want of room both runs halt, the first one even at a comment
        rw [run_of_isFull hfull rfl, run_of_isFull (s := ⟨goals, t, m, .outside none⟩) hfull rfl]
        exact ⟨rfl, .tooDeep (i := 0) (j := 0)⟩
      | false =>
        rcases withoutComments?_cons hbrace hleft with ⟨hopening, hword⟩ | ⟨hc, hword⟩
        · rw [Lexeme.is_iff] at hopening
          have hmark : openingMark ≠ closingMark := by decide
          have hstep : State.step ⟨goals, t, n, .outside none⟩ x = .ok ⟨goals, t, n + 1, bracedMargin true n⟩ := by
            simp [hopening, hfull, hmark, bracedMargin]
          rw [State.run, hstep]
          rw [hword] at hleft
          obtain ⟨hscope, hbreach⟩ := ih goals n hrest hleft
          exact ⟨hscope, hbreach.skip hword⟩
        · rw [hword] at hleft
          obtain ⟨left', hleft', rfl⟩ := Option.map_eq_some_iff.mp hleft
          rcases step_alike t goals hc with ⟨t', goals', hstep⟩ | ⟨kind, hstep⟩
          · rw [State.run, State.run, hstep, hstep]
            obtain ⟨hscope, hbreach⟩ := ih goals' opening hrest hleft'
            exact ⟨hscope, hbreach.cons hword⟩
          · rw [State.run, State.run, hstep, hstep]
            exact ⟨rfl, .word (i := 0) (j := 0) rfl rfl rfl⟩

/-! ## The two reports -/

/-- Deleting its comments changes neither the blocks of a program nor what is reported: nothing, or a breach of the same
rule at the same lexeme, at the end of the input, or for want of room. -/
theorem analyze_withoutComments {program left : List Lexeme} (hmarks : MarkedByBraces program)
    (hleft : withoutComments? false program = some left) :
    (analyze program).scope = (analyze left).scope ∧
      ((analyze program).diagnostic? = none ∧ (analyze left).diagnostic? = none ∨
        ∃ kind i j, (analyze program).diagnostic? = some ⟨kind, lexemeAt program i⟩ ∧
          (analyze left).diagnostic? = some ⟨kind, lexemeAt left j⟩ ∧
          (kind = .nestingTooDeep ∨ i = program.length ∧ j = left.length ∨
            ∃ x, program[i]? = some x ∧ left[j]? = some x ∧
              withoutComments? false (program.take i) = some (left.take j))) := by
  have hruns := run_withoutComments (t := .empty) (n := 0) (m := 0) [.programWord] 0 hmarks hleft
  obtain ⟨hscope, hbreach⟩ : _ ∧ SameBreach false program left 0 0 (breach? program) (breach? left) := hruns
  refine ⟨hscope, ?_⟩
  rw [diagnostic?_analyze, diagnostic?_analyze]
  generalize breach? program = halt? at hbreach
  generalize breach? left = halt?' at hbreach
  cases hbreach with
  | nothing => exact .inl ⟨rfl, rfl⟩
  | tooDeep => exact .inr ⟨_, _, _, rfl, rfl, .inl rfl⟩
  | atEnd => exact .inr ⟨_, _, _, rfl, rfl, .inr (.inl ⟨Nat.zero_add _, Nat.zero_add _⟩)⟩
  | @word kind i j x hx hx' hbefore =>
    rw [Nat.zero_add, Nat.zero_add]
    exact .inr ⟨kind, i, j, rfl, rfl, .inr (.inr ⟨x, hx, hx', hbefore⟩)⟩

/-- A program with comments before and behind its words, and a word that is refused behind one. -/
def annotated : List Lexeme :=
  tokenize .builtin "program var \x7b \x7b [ \x7d int x begin [ \x7b a \x7d \x7b \x7d x := \x7b 1 \x7d true \x7b ] end \x7d"

/-- What is left of it. -/
def unannotated : List Lexeme :=
  (withoutComments? false annotated).getD []

theorem analyze_annotated :
    (MarkedByBraces annotated ∧ withoutComments? false annotated = some unannotated) ∧
    (analyze annotated).scope = (analyze unannotated).scope ∧
      ((analyze annotated).diagnostic? = none ∧ (analyze unannotated).diagnostic? = none ∨
        ∃ kind i j, (analyze annotated).diagnostic? = some ⟨kind, lexemeAt annotated i⟩ ∧
          (analyze unannotated).diagnostic? = some ⟨kind, lexemeAt unannotated j⟩ ∧
          (kind = .nestingTooDeep ∨ i = annotated.length ∧ j = unannotated.length ∨
            ∃ x, annotated[i]? = some x ∧ unannotated[j]? = some x ∧
              withoutComments? false (annotated.take i) = some (unannotated.take j))) := by
  have hmarks : MarkedByBraces annotated := by
    unfold MarkedByBraces
    decide +kernel
  have hleft : withoutComments? false annotated = some unannotated := by decide +kernel
  exact ⟨⟨hmarks, hleft⟩, analyze_withoutComments hmarks hleft⟩

end MiniPascal
