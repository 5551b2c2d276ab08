import MiniPascal.Proofs.Comments.Deletion
import MiniPascal.Proofs.Descent.Tables

/-!
# What the analysis answers from a spot on

The analysis with a stack of goals may start at any spot of a program, and gives an answer there: the breach, if any,
and the blocks at the end.

- `answerAt`: the answer. At a word it depends on what the goals do with the word (`answerAt_word`), at a comment on
  where the comment is closed (`answerAt_comment`), and stacks that treat every lexeme alike give the same answer
  (`answerAt_alike`).
- `onLexeme_empty`: most goals treat the end of the input as an empty lexeme, which is what a descent sees there.
- `At`: a spot and a stack that give a fixed answer; `Settled`: such a spot before a word or at the end, where the goal
  on top decides (`Settled.refuse`, `Settled.pass`, `Settled.take`).
-/

namespace MiniPascal.Descent

variable {program : List Lexeme} {p : Spot} {x : Lexeme} {stack stack' rest new : List Goal} {g : Goal} {halt : Halt}
  {t : ScopeTable} {n m : Nat}

/-! ## Spots as states -/

/-- The index before another one, if a comment is closed there whose last mark before is no opening brace. -/
def looseBehind (program : List Lexeme) : Nat → Option Nat
  | 0 => none
  | behind + 1 =>
    if program[behind]?.any (·.is .comment closingMark) then
      if ((program.take behind).reverse.find? (·.category = .comment)).any (·.text = openingMark) then none
      else some behind
    else none

/-- The spot as goals see it. -/
@[simps]
def place (program : List Lexeme) (p : Spot) : Place :=
  ⟨p.cursor, looseBehind program p.cursor⟩

/-- The analysis at a spot outside comments. -/
def stateAt (program : List Lexeme) (stack : List Goal) (p : Spot) : State :=
  ⟨stack, p.scope, p.cursor, .outside (looseBehind program p.cursor)⟩

/-- What the analysis answers from a spot on. -/
def answerAt (program : List Lexeme) (stack : List Goal) (p : Spot) : Option Halt × ScopeTable :=
  (stateAt program stack p).run (program.drop p.cursor)

/-- Nothing is loose behind a word. -/
theorem looseBehind_succ (hx : program[n]? = some x) (hc : x.category ≠ .comment) :
    looseBehind program (n + 1) = none := by
  simp [looseBehind, hx, hc]

/-! ## Words and the end of the input -/

theorem answerAt_end (h : program[p.cursor]? = none) :
    answerAt program stack p = (complaint p.scope (place program p) stack, p.scope) := by
  rw [answerAt, List.drop_eq_nil_of_le (List.getElem?_eq_none_iff.mp h)]
  rfl

theorem answerAt_word (hx : program[p.cursor]? = some x) (hc : x.category ≠ .comment) :
    answerAt program stack p =
      match offer p.scope (place program p) x stack with
      | .take scope new => answerAt program new ⟨p.cursor + 1, scope⟩
      | .pass => (some ⟨.trailingAfterEnd, p.cursor⟩, p.scope)
      | .refuse halt => (some halt, p.scope) := by
  obtain ⟨hlt, rfl⟩ := List.getElem?_eq_some_iff.mp hx
  rw [answerAt, List.drop_eq_getElem_cons hlt, State.run, State.step_of_word rfl hc]
  dsimp only [stateAt, place]
  cases offer p.scope ⟨p.cursor, looseBehind program p.cursor⟩ program[p.cursor] stack with
  | take scope new => simp only [answerAt, stateAt, looseBehind_succ hx hc]
  | pass => rfl
  | refuse halt => rfl

/-- Without room the analysis halts, even before a comment. -/
theorem answerAt_full (h : (stateAt program stack p).isFull = true) :
    answerAt program stack p = (some ⟨.nestingTooDeep, p.cursor⟩, p.scope) :=
  run_of_isFull h rfl _

/-! ## Comments -/

/-- The last mark of a comment behind some of its lexemes. -/
def lastMark (mark : String) (xs : List Lexeme) : String :=
  (xs.reverse.find? (·.category = .comment)).elim mark (·.text)

theorem lastMark_cons (mark : String) (y : Lexeme) (ys : List Lexeme) :
    lastMark mark (y :: ys) = lastMark (if y.category = .comment then y.text else mark) ys := by
  rw [lastMark, lastMark, List.reverse_cons, List.find?_append]
  cases ys.reverse.find? (·.category = .comment) with
  | some z => rfl
  | none =>
    by_cases hy : y.category = .comment
    · simp [hy]
    · simp [hy]

/-- A comment is read up to the first closing brace. -/
theorem run_inside (stack : List Goal) (t : ScopeTable) (opening : Nat) (mark : String) (n : Nat) (ys : List Lexeme) :
    State.run ⟨stack, t, n, .inside opening mark⟩ ys =
      match ys.findIdx? (·.is .comment closingMark) with
      | none => (some ⟨.missingCommentClosing, opening⟩, t)
      | some k => State.run ⟨stack, t, n + k + 1,
          .outside (if lastMark mark (ys.take k) = openingMark then none else some (n + k))⟩ (ys.drop (k + 1)) := by
  induction ys generalizing n mark with
  | nil => rfl
  | cons y ys ih =>
    have hstep : State.step ⟨stack, t, n, .inside opening mark⟩ y =
      .ok ⟨stack, t, n + 1, readInside opening mark n y⟩ := rfl
    rw [State.run, hstep, List.findIdx?_cons]
    by_cases hy : y.is .comment closingMark = true
    · have hclose := Lexeme.is_iff.mp hy
      have hread : readInside opening mark n y = .outside (if mark = openingMark then none else some n) := by
        rw [readInside, if_neg (not_not_intro hclose.1), if_pos hclose.2]
      rw [if_pos hy, hread]
      rfl
    · have hread : readInside opening mark n y = .inside opening (if y.category = .comment then y.text else mark) := by
        rw [Lexeme.is_iff, not_and] at hy
        by_cases hc : y.category = .comment
        · simp [readInside, hc, hy hc]
        · simp [readInside, hc]
      simp only [hy, Bool.false_eq_true, if_false]
      rw [hread, ih]
      cases ys.findIdx? (·.is .comment closingMark) with
      | none => rfl
      | some k =>
        simp only [Option.map_some, List.take_succ_cons, List.drop_succ_cons, lastMark_cons,
          Nat.add_right_comm n 1 k, Nat.add_assoc n k 1]

/-- A closing brace closes nothing outside comments. -/
theorem answerAt_stray (h : (stateAt program stack p).isFull = false) (hx : program[p.cursor]? = some x)
    (hc : x.category = .comment) (htext : x.text = closingMark) :
    answerAt program stack p = (some ⟨.missingCommentOpening, p.cursor⟩, p.scope) := by
  obtain ⟨hlt, rfl⟩ := List.getElem?_eq_some_iff.mp hx
  have hstep : (stateAt program stack p).step program[p.cursor] = .error ⟨.missingCommentOpening, p.cursor⟩ := by
    rw [State.step_of_comment rfl hc, if_neg (by simp [h]), if_pos htext]
    rfl
  rw [answerAt, List.drop_eq_getElem_cons hlt, State.run, hstep]
  rfl

/-- What is loose behind a comment is told from its last mark. -/
theorem looseBehind_comment {k : Nat} (hx : program[n]? = some x) (hc : x.category = .comment)
    (hk : (program.drop (n + 1)).findIdx? (·.is .comment closingMark) = some k) :
    looseBehind program (n + k + 2) =
      if lastMark x.text ((program.drop (n + 1)).take k) = openingMark then none else some (n + 1 + k) := by
  obtain ⟨hlt, rfl⟩ := List.getElem?_eq_some_iff.mp hx
  obtain ⟨hkl, hclose, _⟩ := List.findIdx?_eq_some_iff_getElem.mp hk
  have hat : program[n + k + 1]? = some (program.drop (n + 1))[k] := by
    rw [← List.getElem?_eq_getElem hkl, List.getElem?_drop]
    congr 1
    omega
  have htake : program.take (n + k + 1) = program.take n ++ program[n] :: (program.drop (n + 1)).take k := by
    rw [← List.take_append_drop n (program.take (n + k + 1)), List.take_take, List.drop_take,
      List.drop_eq_getElem_cons hlt, show n + k + 1 - n = k + 1 by omega, List.take_succ_cons,
      Nat.min_eq_left (by omega)]
  have hmark : ((program.take (n + k + 1)).reverse.find? (·.category = .comment)).any (·.text = openingMark) =
      decide (lastMark program[n].text ((program.drop (n + 1)).take k) = openingMark) := by
    rw [htake, List.reverse_append, List.reverse_cons, List.append_assoc, List.find?_append, lastMark]
    cases ((program.drop (n + 1)).take k).reverse.find? (·.category = .comment) with
    | some z => rfl
    | none =>
      simp [hc]
      rfl
  have hindex : n + k + 1 = n + 1 + k := by omega
  rw [looseBehind, hat, Option.any_some, hclose, if_pos rfl, hmark, hindex]
  simp only [decide_eq_true_eq]

/-- A comment is skipped up to the first closing brace. -/
theorem answerAt_comment (h : (stateAt program stack p).isFull = false) (hx : program[p.cursor]? = some x)
    (hc : x.category = .comment) (htext : x.text ≠ closingMark) :
    answerAt program stack p =
      match (program.drop (p.cursor + 1)).findIdx? (·.is .comment closingMark) with
      | none => (some ⟨.missingCommentClosing, p.cursor⟩, p.scope)
      | some k => answerAt program stack ⟨p.cursor + k + 2, p.scope⟩ := by
  have hloose {k : Nat} := looseBehind_comment (k := k) hx hc
  obtain ⟨hlt, rfl⟩ := List.getElem?_eq_some_iff.mp hx
  have hstep : (stateAt program stack p).step program[p.cursor] =
      .ok ⟨stack, p.scope, p.cursor + 1, .inside p.cursor program[p.cursor].text⟩ := by
    rw [State.step_of_comment rfl hc, if_neg (by simp [h]), if_neg htext]
    rfl
  rw [answerAt, List.drop_eq_getElem_cons hlt, State.run, hstep]
  dsimp only
  rw [run_inside]
  cases hk : (program.drop (p.cursor + 1)).findIdx? (·.is .comment closingMark) with
  | none => rfl
  | some k =>
    have hindex : p.cursor + 1 + k + 1 = p.cursor + k + 2 := by omega
    have hdrop : p.cursor + 1 + (k + 1) = p.cursor + k + 2 := by omega
    simp only [answerAt, stateAt, hloose hk, List.drop_drop, hindex, hdrop]

/-! ## Stacks that are alike -/

/-- Two stacks treat every lexeme and the end of the input alike. -/
structure Alike (t : ScopeTable) (stack stack' : List Goal) : Prop where
  full : State.isFull ⟨stack, t, 0, .outside none⟩ = State.isFull ⟨stack', t, 0, .outside none⟩
  offers (here : Place) (x : Lexeme) : offer t here x stack = offer t here x stack'
  complaints (here : Place) : complaint t here stack = complaint t here stack'

theorem Alike.symm (h : Alike t stack stack') : Alike t stack' stack :=
  ⟨h.full.symm, fun here x => (h.offers here x).symm, fun here => (h.complaints here).symm⟩

/-- Alike stacks give the same answer: a comment changes neither, and a word replaces both. -/
theorem Alike.run_eq (h : Alike t stack stack') (margin : Margin) (n : Nat) (xs : List Lexeme) :
    State.run ⟨stack, t, n, margin⟩ xs = State.run ⟨stack', t, n, margin⟩ xs := by
  induction xs generalizing margin n with
  | nil => cases margin <;> simp [State.run, State.finish, h.complaints]
  | cons x xs ih =>
    have hfull : State.isFull ⟨stack, t, n, margin⟩ = State.isFull ⟨stack', t, n, margin⟩ := h.full
    cases margin with
    | inside opening mark => exact ih _ _
    | outside loose? =>
      by_cases hc : x.category = .comment
      · simp only [State.run, State.step_mk_comment hc, hfull]
        cases State.isFull ⟨stack', t, n, .outside loose?⟩ with
        | true => rfl
        | false =>
          by_cases htext : x.text = closingMark
          · simp [htext]
          · simpa [htext] using ih _ _
      · simp [State.run, hc, h.offers]

theorem answerAt_alike (h : Alike p.scope stack stack') : answerAt program stack p = answerAt program stack' p :=
  h.run_eq _ _ _

/-! ## The end of the input as a lexeme -/

/-- At the end of the input stands an empty lexeme of no category. -/
theorem lexemeAt_of_none (h : program[n]? = none) :
    (lexemeAt program n).category = .unclassified ∧ (lexemeAt program n).text = "" := by
  rw [lexemeAt, h, Option.getD_none]
  cases program.getLast? <;> exact ⟨rfl, rfl⟩

/-- No variable has the empty name. -/
theorem Proper.find?_empty (h : Proper t) : t.find? "" = none := by
  rw [h.shows.find?]
  refine List.findSome?_eq_none_iff.mpr fun f hf => List.lookup_eq_none_iff.mpr fun v hv => ?_
  have hid := h.shows.identifiers hf hv
  rw [bne_iff_ne]
  intro hname
  rw [← hname] at hid
  exact absurd hid (by decide)

/-- Whether a goal sees no difference between the end of the input and an empty lexeme. -/
def ordinary : Goal → Bool
  | .operator _ | .moreStatements _ => false
  | .word category _ => category ≠ .unclassified
  | _ => true

theorem takeOperand_empty (h : Proper t) (here : Place) (expected : Option DataType) (hc : x.category = .unclassified)
    (ht : x.text = "") : takeOperand t here x expected = here.refuse (.awaitedWord "variable or value") := by
  have hliteral : DataType.ofLiteral? "" = none := by decide
  have hname : isIdentifier "" = false := by decide
  simp [takeOperand, hc, ht, h.find?_empty, hliteral, hname]

/-- A goal treats an empty lexeme as it treats the end of the input. -/
theorem onLexeme_empty (h : Proper t) (here : Place) (hg : ordinary g) (hc : x.category = .unclassified)
    (ht : x.text = "") : g.onLexeme t here x = (g.onEnd t here).elim .pass .refuse := by
  have hresolve : x.resolve? t = none := by rw [Lexeme.resolve?, if_pos hc, ht, h.find?_empty]
  have hname : isIdentifier "" = false := by decide
  cases g with
  | operator | moreStatements => cases hg
  | word category text =>
    have hne : x.is category text = false := by
      rw [ordinary, decide_eq_true_eq] at hg
      simp [hc, Ne.symm hg]
    simp [Goal.onEnd, hne]
  | room depth => cases hroom : t.hasRoom depth <;> simp [Goal.onEnd, hroom]
  | moreOperators => cases hloose : here.loose? <;> simp [Goal.onEnd, hloose, hc]
  | variableName => simp [Goal.onEnd, declareName, ht, hname]
  | target => simp [Goal.onEnd, assignTo, hresolve]
  | readTarget => simp [Goal.onEnd, hresolve]
  | term | operand => simp [Goal.onEnd, takeOperand_empty h here _ hc ht, hc]
  | _ => simp [Goal.onEnd, hc]

/-! ## Spots that give an answer -/

variable {answer : Option Halt × ScopeTable} {scope : ScopeTable}

/-- A spot at which a stack of goals gives an answer. -/
structure At (program : List Lexeme) (answer : Option Halt × ScopeTable) (stack : List Goal) (p : Spot) : Prop where
  inRange : p.cursor ≤ program.length
  proper : Proper p.scope
  answers : answerAt program stack p = answer

/-- Such a spot before a word or at the end of the input. -/
structure Settled (program : List Lexeme) (answer : Option Halt × ScopeTable) (stack : List Goal) (p : Spot) : Prop
    extends At program answer stack p where
  word {x : Lexeme} (hx : program[p.cursor]? = some x) : x.category ≠ .comment

/-- A stack may be replaced by one that is alike. -/
theorem At.alike (h : At program answer stack p) (ha : Alike p.scope stack stack') : At program answer stack' p :=
  ⟨h.inRange, h.proper, (answerAt_alike ha).symm.trans h.answers⟩

/-- Without room the answer is known. -/
theorem At.full (h : At program answer stack p) (hfull : (stateAt program stack p).isFull = true) :
    answer = (some ⟨.nestingTooDeep, p.cursor⟩, p.scope) :=
  h.answers.symm.trans (answerAt_full hfull)

namespace Settled

/-- Before a word a stack may be replaced by one that treats this word alike, or the end of the input. -/
theorem alike (h : Settled program answer stack p)
    (hoffer : ∀ x, program[p.cursor]? = some x →
      offer p.scope (place program p) x stack = offer p.scope (place program p) x stack')
    (hend : program[p.cursor]? = none →
      complaint p.scope (place program p) stack = complaint p.scope (place program p) stack') :
    Settled program answer stack' p where
  inRange := h.inRange
  proper := h.proper
  answers := by
    rw [← h.answers]
    cases hx : program[p.cursor]? with
    | none => rw [answerAt_end hx, answerAt_end hx, hend hx]
    | some x => rw [answerAt_word hx (h.word hx), answerAt_word hx (h.word hx), hoffer x hx]
  word := h.word

theorem of_alike (h : Settled program answer stack p) (ha : Alike p.scope stack stack') :
    Settled program answer stack' p :=
  h.alike (fun x _ => ha.offers _ x) fun _ => ha.complaints _

variable (h : Settled program answer (g :: rest) p)
include h

/-- A word that the goal on top refuses is the answer. -/
theorem refuseWord (hx : program[p.cursor]? = some x)
    (hr : g.onLexeme p.scope (place program p) x = .refuse halt) : answer = (some halt, p.scope) := by
  rw [← h.answers, answerAt_word hx (h.word hx), offer, hr]

/-- A goal that takes a word is replaced behind it. -/
theorem takeWord (new : List Goal) (hx : program[p.cursor]? = some x)
    (hr : g.onLexeme p.scope (place program p) x = .take scope new) (hs : Proper scope) :
    p.cursor < program.length ∧ At program answer (new ++ rest) ⟨p.cursor + 1, scope⟩ := by
  have hlt := (List.getElem?_eq_some_iff.mp hx).1
  refine ⟨hlt, hlt, hs, ?_⟩
  rw [← h.answers, answerAt_word hx (h.word hx), offer, hr]

variable (hg : ordinary g = true)
include hg

/-- What the goal on top refuses, be it the end of the input, is the answer. -/
theorem refuse (hr : g.onLexeme p.scope (place program p) (lexemeAt program p.cursor) = .refuse halt) :
    answer = (some halt, p.scope) := by
  cases hx : program[p.cursor]? with
  | some x => exact h.refuseWord hx (lexemeAt_of_getElem? hx ▸ hr)
  | none =>
    rw [onLexeme_empty h.proper _ hg (lexemeAt_of_none hx).1 (lexemeAt_of_none hx).2] at hr
    rw [← h.answers, answerAt_end hx, complaint_cons]
    cases he : g.onEnd p.scope (place program p) <;> rw [he] at hr <;> cases hr
    rfl

/-- A goal that is met gives way to the next one. -/
theorem pass (hr : g.onLexeme p.scope (place program p) (lexemeAt program p.cursor) = .pass) :
    Settled program answer rest p := by
  refine h.alike (fun x hx => ?_) fun hx => ?_
  · rw [lexemeAt_of_getElem? hx] at hr
    rw [offer, hr]
  · rw [onLexeme_empty h.proper _ hg (lexemeAt_of_none hx).1 (lexemeAt_of_none hx).2] at hr
    rw [complaint_cons]
    cases he : g.onEnd p.scope (place program p) <;> rw [he] at hr <;> cases hr
    rfl

/-- A goal that takes the lexeme is replaced behind it; the end of the input is not taken. -/
theorem take (new : List Goal) (hr : g.onLexeme p.scope (place program p) (lexemeAt program p.cursor) = .take scope new)
    (hs : Proper scope) : p.cursor < program.length ∧ At program answer (new ++ rest) ⟨p.cursor + 1, scope⟩ := by
  cases hx : program[p.cursor]? with
  | some x => exact h.takeWord new hx (lexemeAt_of_getElem? hx ▸ hr) hs
  | none =>
    rw [onLexeme_empty h.proper _ hg (lexemeAt_of_none hx).1 (lexemeAt_of_none hx).2] at hr
    cases he : g.onEnd p.scope (place program p) <;> rw [he] at hr <;> cases hr

end Settled

end MiniPascal.Descent
