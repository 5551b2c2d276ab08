import MiniPascal.Command
import MiniPascal.Proofs.Analysis.Takes
import MiniPascal.Proofs.Comments.Stray

/-!
# Where diagnostics point

A diagnostic points at a lexeme of the program, or behind the last one. A lexical one points at a mark of a comment. Any
other one points at a word, except where there is no room for a statement behind an opening bracket or an `else`: if a
comment stands there, it is blamed.

* `marks_of_reaches`: what the margin remembers are marks of comments.
* `Guarded`, `guarded_of_reaches`: room is missed right behind a bracket or an `else` only.
* `lies_of_breach?`: the place of a breach.
* `points_iff`: when a diagnostic points where it should, and the line that lists its lexeme.
-/

namespace MiniPascal

variable {program : List Lexeme} {i : Nat} {s s' : State} {x : Lexeme} {g : Goal} {goals new : List Goal}
  {t t' : ScopeTable} {here : Place} {context : Context} {halt : Halt}

/-! ## Marks of comments -/

/-- The lexeme of an index is a mark of a comment. -/
def IsMark (program : List Lexeme) (i : Nat) : Prop :=
  ∃ x, program[i]? = some x ∧ x.category = .comment

/-- The indices that the margin remembers are those of marks. -/
def Margin.Marks (program : List Lexeme) : Margin → Prop
  | .inside opening _ => IsMark program opening
  | .outside loose? => ∀ closing, loose? = some closing → IsMark program closing

theorem marks_of_reaches (hi : i ≤ program.length) (h : Reaches program i s) : s.margin.Marks program := by
  have hinv : s.read = i ∧ s.margin.Marks program := by
    refine invariant_of_step (P := fun i s => s.read = i ∧ s.margin.Marks program) ⟨rfl, nofun⟩ ?_ hi h
    rintro i x s s' hx ⟨hread, hmarks⟩ hmoves
    refine ⟨by rw [hmoves.read, hread], ?_⟩
    cases hmoves with
    | skip hm =>
      rw [hm] at hmarks
      simp only [readInside]
      split
      · exact hmarks
      rename_i hc
      split
      · intro closing hclosing
        obtain ⟨_, hclosing⟩ := Option.ite_none_left_eq_some.mp hclosing
        cases hclosing
        exact ⟨x, hread ▸ hx, Decidable.not_not.mp hc⟩
      · exact hmarks
    | comment _ hc _ => exact ⟨x, hread ▸ hx, hc⟩
    | goal => nofun
  exact hinv.2

/-! ## Missing room -/

/-- A lexeme is an opening bracket or an `else`: there has to be room for a statement behind it, whatever stands
there. -/
def Crowds (x : Lexeme) : Prop :=
  x.category = .compoundOpen ∨ x.is .conditional "else"

/-- Whether a goal asks for room alone. -/
def Goal.isRoom : Goal → Bool
  | .room _ => true
  | _ => false

/-- The goals that a lexeme leaves ask for room on top only, and there only if it is a bracket or an `else`. -/
def Rooms (x : Lexeme) : List Goal → Prop
  | [] => True
  | g :: below => (g.isRoom → Crowds x) ∧ ∀ g' ∈ below, g'.isRoom = false

theorem rooms_of_begins (h : Begins t x context t' new) : Rooms x new := by
  cases h with
  | opening hx => exact ⟨fun _ => .inl hx, by simp [Goal.isRoom]⟩
  | _ =>
    simp [Rooms, Goal.isRoom]

theorem rooms_of_takes (h : g.Takes t here x t' new) : Rooms x new := by
  cases h with
  | operator hb | moreStatements hb => exact rooms_of_begins hb
  | elseBranch hx => exact ⟨fun _ => .inr hx, by simp [Goal.isRoom]⟩
  | _ => simp [Rooms, Goal.isRoom]

/-- Where there is no room. -/
theorem isFull_iff : s.isFull ↔ ∃ depth below, s.goals = .room depth :: below ∧ s.scope.hasRoom depth = false := by
  unfold State.isFull
  split
  · rename_i depth below hgoals
    simp [hgoals]
  · rename_i hne
    simp only [Bool.false_eq_true, false_iff, not_exists, not_and]
    exact fun depth below hgoals => absurd hgoals (hne depth below)

theorem not_isFull_of_comment {loose? : Option Nat} (hm : s.margin = .outside loose?) (hc : x.category = .comment)
    (h : s.step x = .ok s') : ¬ s.isFull := by
  intro hfull
  rw [State.step_of_comment hm hc, if_pos hfull] at h
  cases h

/-- Room is asked for on top only, and missed only outside comments and right behind a bracket or an `else`. -/
structure Guarded (program : List Lexeme) (i : Nat) (s : State) : Prop where
  below : ∀ g ∈ s.goals.tail, g.isRoom = false
  outside : s.isFull → s.margin.isInside = false
  behind : s.isFull → ∃ j x, i = j + 1 ∧ program[j]? = some x ∧ Crowds x

theorem Guarded.step (h : Guarded program i s) (hx : program[i]? = some x) (hstep : s.step x = .ok s') :
    Guarded program (i + 1) s' := by
  cases moves_of_step hstep with
  | skip hm =>
    have hfull : ¬ s.isFull := by
      intro hfull
      have := h.outside hfull
      rw [hm] at this
      cases this
    exact ⟨h.below, fun hf => absurd hf hfull, fun hf => absurd hf hfull⟩
  | comment hm hc _ =>
    have hfull := not_isFull_of_comment hm hc hstep
    exact ⟨h.below, fun hf => absurd hf hfull, fun hf => absurd hf hfull⟩
  | @goal _ passed rest new _ _ _ _ hgoals _ hg =>
    have hrooms := rooms_of_takes (takes_of_onLexeme hg)
    have hrest : ∀ g ∈ rest, g.isRoom = false := by
      intro g' hmem
      refine h.below g' ?_
      rw [hgoals]
      cases passed with
      | nil => exact hmem
      | cons => simp [hmem]
    refine ⟨?_, fun _ => rfl, fun hfull => ?_⟩
    · intro g' hmem
      cases new with
      | nil => exact hrest g' (List.mem_of_mem_tail hmem)
      | cons top new =>
        rcases List.mem_append.mp hmem with hmem | hmem
        · exact hrooms.2 g' hmem
        · exact hrest g' hmem
    · obtain ⟨depth, below, hroom, _⟩ := isFull_iff.mp hfull
      cases new with
      | nil =>
        obtain rfl : rest = .room depth :: below := hroom
        cases hrest (.room depth) List.mem_cons_self
      | cons top new =>
        obtain ⟨rfl, _⟩ := List.cons.inj hroom
        exact ⟨i, x, rfl, hx, hrooms.1 rfl⟩

theorem guarded_of_reaches (hi : i ≤ program.length) (h : Reaches program i s) : Guarded program i s := by
  induction i generalizing s with
  | zero =>
    cases h
    exact ⟨nofun, nofun, nofun⟩
  | succ i ih =>
    have hx := List.getElem?_eq_getElem (Nat.lt_of_succ_le hi)
    obtain ⟨r, hr, hstep⟩ := (reaches_succ hx).mp h
    exact (ih (Nat.le_of_succ_le hi) hr).step hx hstep

/-! ## The place of a breach -/

/-- Where a breach of a program lies. -/
inductive Lies (program : List Lexeme) (halt : Halt) : Prop
  /-- A lexical one lies at a mark of a comment. -/
  | mark (hk : halt.kind.diagnosticClass = .lexical) (hx : IsMark program halt.index)
  /-- Any other one lies at a word, -/
  | word {x : Lexeme} (hk : halt.kind.diagnosticClass ≠ .lexical) (hx : program[halt.index]? = some x)
      (hc : x.category ≠ .comment)
  /-- or at a comment behind a bracket or an `else`, if it is a want of room, -/
  | crowded {j : Nat} {x : Lexeme} (hk : halt.kind = .nestingTooDeep) (hi : halt.index = j + 1)
      (hx : program[j]? = some x) (hcrowds : Crowds x) (hmark : IsMark program (j + 1))
  /-- or behind the last lexeme, if the program has been read. -/
  | ending (hk : halt.kind.diagnosticClass ≠ .lexical) (hi : halt.index = program.length)
      (hcursor : cursor program = program.length)

theorem lies_of_step (hs : Reaches program i s) (hx : program[i]? = some x) (h : s.step x = .error halt) :
    Lies program halt := by
  have hi := Nat.le_of_lt (List.getElem?_eq_some_iff.mp hx).1
  have hread := read_of_reaches hi hs
  subst hread
  cases halting_of_step h with
  | full _ hc hfull =>
    obtain ⟨j, y, hread, hy, hcrowds⟩ := (guarded_of_reaches hi hs).behind hfull
    exact .crowded rfl hread hy hcrowds ⟨x, hread ▸ hx, hc⟩
  | stray _ hc => exact .mark rfl ⟨x, hx, hc⟩
  | late _ hc => exact .word (by simp [DiagnosticKind.diagnosticClass]) hx hc
  | goal hm hc _ _ hg =>
    rcases refuses_of_onLexeme hg with ⟨hindex, hrefuses⟩ | ⟨_, hloose, hk⟩
    · exact .word (class_of_refuses hrefuses) (hindex ▸ hx) hc
    · have hmarks := marks_of_reaches hi hs
      rw [hm] at hmarks
      exact .mark (by rw [hk, DiagnosticKind.diagnosticClass]) (hmarks _ hloose)

theorem lies_of_finish (hs : Reaches program program.length s) (h : s.finish = some halt) : Lies program halt := by
  have hread := read_of_reaches (Nat.le_refl _) hs
  have hmarks := marks_of_reaches (Nat.le_refl _) hs
  have hcursor := (Stops.finish hs rfl).cursor_eq
  rw [List.drop_length, State.cursor] at hcursor
  rw [State.finish] at h
  split at h
  · rename_i hm
    cases h
    rw [hm] at hmarks
    exact .mark rfl hmarks
  · rename_i hm
    rw [hm] at hmarks hcursor
    obtain ⟨_, g, _, _, _, hg⟩ := complaint_eq_some h
    rcases lacks_of_onEnd hg with ⟨hindex, hlacks⟩ | ⟨_, hloose, hk⟩
    · exact .ending (class_of_lacks hlacks) (hindex.trans hread) (hcursor.trans hread)
    · exact .mark (by rw [hk, DiagnosticKind.diagnosticClass]) (hmarks _ hloose)

/-- Every breach lies where one of its class can lie. -/
theorem lies_of_breach? (h : breach? program = some halt) : Lies program halt := by
  rcases breach?_eq_some h with ⟨i, x, s, hx, hs, hstep⟩ | ⟨s, hs, hfinish⟩
  · exact lies_of_step hs hx hstep
  · exact lies_of_finish hs hfinish

/-! ## The lexeme of a diagnostic -/

/-- A diagnostic of a program points where it should: at a lexeme, or behind the last one if the whole program has been
read; a lexical one at a mark of a comment, and any other one at none. -/
structure Points (program : List Lexeme) (d : Diagnostic) : Prop where
  listed : d.lexeme ∈ program ∨ d.lexeme = .endOfInput program.getLast? ∧ cursor program = program.length
  lexical : d.kind.diagnosticClass = .lexical → d.lexeme ∈ program ∧ d.lexeme.category = .comment
  other : d.kind.diagnosticClass ≠ .lexical → d.lexeme.category ≠ .comment

/-- There is no room for a statement behind an opening bracket or an `else`, and the comment that stands there is blamed
for it. -/
def BlamesComment (program : List Lexeme) : Prop :=
  ∃ j x y, program[j]? = some x ∧ Crowds x ∧ program[j + 1]? = some y ∧ y.category = .comment ∧
    (analyze program).diagnostic? = some ⟨.nestingTooDeep, y⟩

theorem points_of_not_blamesComment {d : Diagnostic} (hreport : (analyze program).diagnostic? = some d)
    (hblames : ¬ BlamesComment program) : Points program d := by
  obtain ⟨halt, hbreach, rfl⟩ := Option.map_eq_some_iff.mp (diagnostic?_analyze program ▸ hreport)
  have hat {x : Lexeme} (hx : program[halt.index]? = some x) : (halt.diagnostic program).lexeme = x :=
    lexemeAt_of_getElem? hx
  cases lies_of_breach? hbreach with
  | mark hk hx =>
    obtain ⟨x, hx, hc⟩ := hx
    have hmem : x ∈ program := List.mem_of_getElem? hx
    rw [← hat hx] at hmem hc
    exact ⟨.inl hmem, fun _ => ⟨hmem, hc⟩, fun hne => absurd hk hne⟩
  | word hk hx hc =>
    have hmem := List.mem_of_getElem? hx
    rw [← hat hx] at hmem hc
    exact ⟨.inl hmem, fun hlexical => absurd hlexical hk, fun _ => hc⟩
  | @crowded j y hk hi hy hcrowds hmark =>
    obtain ⟨x, hx, hc⟩ := hmark
    have hdiagnostic : halt.diagnostic program = ⟨.nestingTooDeep, x⟩ := by
      rw [← hi] at hx
      rw [← hk, ← hat hx]
      rfl
    exact absurd ⟨j, y, x, hy, hcrowds, hx, hc, hdiagnostic ▸ hreport⟩ hblames
  | ending hk hi hcursor =>
    have hend : (halt.diagnostic program).lexeme = .endOfInput program.getLast? := by
      simp [Halt.diagnostic, lexemeAt, hi]
    refine ⟨.inr ⟨hend, hcursor⟩, fun hlexical => absurd hlexical hk, fun _ hcomment => ?_⟩
    rw [hend] at hcomment
    cases hlast : program.getLast? <;> rw [hlast] at hcomment <;> cases hcomment

/-- What a check prints and what a listing of the same file prints are about the same lexemes. -/
theorem listed_of_check {read : Reader} {path : String} {dictionary? : Option String}
    (hcode : ((Command.check path dictionary?).run read).code = 1) :
    ∃ d xs, (Command.check path dictionary?).run read = ⟨1, d.render ++ "\n", ""⟩ ∧
      (Command.tokens path dictionary?).run read = ⟨0, listLexemes xs, ""⟩ ∧ (analyze xs).diagnostic? = some d := by
  simp only [Command.run, Command.result, bind, Except.bind, pure, Except.pure] at hcode ⊢
  cases hdictionary : Dictionary.loadOrBuiltin read dictionary? with
  | error e => simp [hdictionary, LoadError.outcome] at hcode
  | ok dictionary =>
    cases hsource : loadText read path with
    | error e => simp [hdictionary, hsource, LoadError.outcome] at hcode
    | ok source =>
      simp only [hdictionary, hsource, check, Report.outcome] at hcode ⊢
      cases hd : (analyze (tokenize dictionary source)).diagnostic? with
      | none => simp [hd] at hcode
      | some d => exact ⟨d, tokenize dictionary source, rfl, rfl, hd⟩

/-- The diagnostic of a program points where it should, unless a comment is blamed for want of room behind an opening
bracket or an `else`. In any case a check prints a diagnostic for a lexeme that the listing of the same file has a line
for, or for the end. -/
theorem points_iff (program : List Lexeme) (read : Reader) (path : String) (dictionary? : Option String) :
    ((∀ d, (analyze program).diagnostic? = some d → Points program d) ↔ ¬ BlamesComment program) ∧
    (((Command.check path dictionary?).run read).code = 1 →
      ∃ (d : Diagnostic) (xs : List Lexeme),
        (Command.check path dictionary?).run read = ⟨1, d.render ++ "\n", ""⟩ ∧
        (Command.tokens path dictionary?).run read = ⟨0, listLexemes xs, ""⟩ ∧
        (d.lexeme ∈ xs ∨ d.lexeme = .endOfInput xs.getLast?)) := by
  constructor
  · constructor
    · rintro hpoints ⟨_, _, _, _, _, _, hc, hreport⟩
      exact (hpoints _ hreport).other nofun hc
    · exact fun hblames d hreport => points_of_not_blamesComment hreport hblames
  · intro hcode
    obtain ⟨d, xs, hcheck, htokens, hreport⟩ := listed_of_check hcode
    refine ⟨d, xs, hcheck, htokens, ?_⟩
    by_cases hblames : BlamesComment xs
    · obtain ⟨_, _, y, _, _, hy, _, hblamed⟩ := hblames
      cases hreport.symm.trans hblamed
      exact .inl (List.mem_of_getElem? hy)
    · exact (points_of_not_blamesComment hreport hblames).listed.imp_right And.left

/-- A program with a comment that is not closed. -/
def gaping : String := "program \x7b begin end"

/-- A directory with this program in it. -/
def gapingReader : Reader :=
  fun path => if path = "p" then .ok gaping else .error .missing

theorem gaping_points :
    (∀ d, (analyze (tokenize .builtin gaping)).diagnostic? = some d → Points (tokenize .builtin gaping) d) ∧
    ((Command.check "p" none).run gapingReader).code = 1 ∧
      ∃ (d : Diagnostic) (xs : List Lexeme),
        (Command.check "p" none).run gapingReader = ⟨1, d.render ++ "\n", ""⟩ ∧
        (Command.tokens "p" none).run gapingReader = ⟨0, listLexemes xs, ""⟩ ∧
        (d.lexeme ∈ xs ∨ d.lexeme = .endOfInput xs.getLast?) := by
  obtain ⟨hpoints, hlisted⟩ := points_iff (tokenize .builtin gaping) gapingReader "p" none
  have hreport : (analyze (tokenize .builtin gaping)).diagnostic? =
      some ⟨.missingCommentClosing, ⟨openingMark, .comment, ⟨1, 8⟩⟩⟩ := by decide +kernel
  have hcode : ((Command.check "p" none).run gapingReader).code = 1 := by decide +kernel
  refine ⟨hpoints.mpr ?_, hcode, hlisted hcode⟩
  rintro ⟨_, _, _, _, _, _, _, hblamed⟩
  rw [hreport] at hblamed
  cases hblamed

/-- A block inside as many loops as there is room for, with a comment behind its bracket. -/
def crowded : List Lexeme :=
  [⟨"program", .programWord, .start⟩, ⟨"begin", .beginWord, .start⟩] ++
    (List.replicate 48 [⟨"while", .whileWord, .start⟩, ⟨"true", .unclassified, .start⟩,
      ⟨"do", .doWord, .start⟩]).flatten ++
    [⟨"[", .compoundOpen, .start⟩, ⟨openingMark, .comment, .start⟩, ⟨closingMark, .comment, .start⟩]

/-- The comment is blamed, and not for being a comment. -/
theorem crowded_blames_comment :
    (∃ d, (analyze crowded).diagnostic? = some d ∧ d.kind.diagnosticClass = .syntactic ∧
      d.lexeme.category = .comment) ∧
    ¬ ∀ d, (analyze crowded).diagnostic? = some d → Points crowded d := by
  have hreport : (analyze crowded).diagnostic? = some ⟨.nestingTooDeep, ⟨openingMark, .comment, .start⟩⟩ := by
    decide +kernel
  exact ⟨⟨_, hreport, rfl, rfl⟩, fun hpoints => (hpoints _ hreport).other nofun rfl⟩

end MiniPascal
