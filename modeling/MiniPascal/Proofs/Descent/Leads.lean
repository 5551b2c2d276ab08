import MiniPascal.Proofs.Descent.Answers
import MiniPascal.Proofs.Descent.Grammar

/-!
# Rules that lead to an answer

A rule leads to an answer if it is never at fault and either halts with that answer or ends, not before its start, where
some postcondition holds. The postconditions say which goals give the answer from there on, so a rule that leads to an
answer does what the analysis does.

- `Leads.bind`, `Leads.mono`: one rule after another, and weaker postconditions.
- `leads_demand`, `leads_bump`, `leads_moveTo`: the steps that rules are made of.
- `leads_loop`, `leads_chain`: a loop whose every round moves the cursor does not go round too often.
- `leads_skipComments`: the comments at a spot are skipped as the analysis skips them.
-/

namespace MiniPascal.Descent

variable {program : List Lexeme} {answer : Option Halt × ScopeTable} {stack rest : List Goal} {p q : Spot} {α β : Type}
  {rule : Rule α} {next : α → Rule β} {P Q : α → Spot → Prop} {R : β → Spot → Prop}

/-- A rule is not at fault; it halts with the answer or ends, not before its start, where the postcondition holds. -/
def Leads (program : List Lexeme) (answer : Option Halt × ScopeTable) (rule : Rule α) (p : Spot)
    (post : α → Spot → Prop) : Prop :=
  match rule program p with
  | .done a q => p.cursor ≤ q.cursor ∧ post a q
  | .halt halt scope => answer = (some halt, scope)
  | .fault _ => False

namespace Leads

theorem pure {a : α} (h : P a p) : Leads program answer (pure a) p P :=
  ⟨Nat.le_refl _, h⟩

/-- One rule after another. -/
theorem bind (h : Leads program answer rule p P)
    (hnext : ∀ a q, p.cursor ≤ q.cursor → P a q → Leads program answer (next a) q R) :
    Leads program answer (rule >>= next) p R := by
  unfold Leads at h ⊢
  rw [Rule.bind_apply]
  cases hrule : rule program p with
  | fault f => rw [hrule] at h; exact h
  | halt halt scope => rw [hrule] at h; exact h
  | done a q =>
    rw [hrule] at h
    have hthen := hnext a q h.1 h.2
    unfold Leads at hthen
    dsimp only
    cases hn : next a program q with
    | fault f => rw [hn] at hthen; exact hthen
    | halt halt scope => rw [hn] at hthen; exact hthen
    | done b r => rw [hn] at hthen; exact ⟨Nat.le_trans h.1 hthen.1, hthen.2⟩

/-- A postcondition may be replaced by one that follows behind the start. -/
theorem mono (h : Leads program answer rule p P) (hpost : ∀ a q, p.cursor ≤ q.cursor → P a q → Q a q) :
    Leads program answer rule p Q := by
  unfold Leads at h ⊢
  cases hrule : rule program p with
  | fault f => rw [hrule] at h; exact h
  | halt halt scope => rw [hrule] at h; exact h
  | done a q => rw [hrule] at h; exact ⟨h.1, hpost a q h.1 h.2⟩

/-- A rule that ends at once. -/
theorem of_apply {a : α} (h : rule program p = .done a q) (hle : p.cursor ≤ q.cursor) (hP : P a q) :
    Leads program answer rule p P := by
  unfold Leads
  rw [h]
  exact ⟨hle, hP⟩

/-- A rule that halts. -/
theorem of_halt {halt : Halt} {scope : ScopeTable} (h : rule program p = .halt halt scope)
    (ha : answer = (some halt, scope)) : Leads program answer rule p P := by
  unfold Leads
  rw [h]
  exact ha

/-- What follows a rule that ends at a known spot. -/
theorem bind_done {a : α} (h : rule program p = .done a q) (hle : p.cursor ≤ q.cursor)
    (hnext : Leads program answer (next a) q R) : Leads program answer (rule >>= next) p R :=
  bind (P := fun b r => b = a ∧ r = q) (of_apply h hle ⟨rfl, rfl⟩) (by rintro _ _ - ⟨rfl, rfl⟩; exact hnext)

/-- What follows a rule that stays where it is. -/
theorem bind_apply {a : α} (h : rule program p = .done a p) (hnext : Leads program answer (next a) p R) :
    Leads program answer (rule >>= next) p R :=
  bind_done h (Nat.le_refl _) hnext

end Leads

/-! ## Single steps -/

theorem leads_peek {next : Lexeme → Rule β} (h : Leads program answer (next (lexemeAt program p.cursor)) p R) :
    Leads program answer (peek >>= next) p R := h

theorem leads_cursor {next : Nat → Rule β} (h : Leads program answer (next p.cursor) p R) :
    Leads program answer (cursor >>= next) p R := h

theorem leads_size {next : Nat → Rule β} (h : Leads program answer (next program.length) p R) :
    Leads program answer (size >>= next) p R := h

theorem leads_scope {next : ScopeTable → Rule β} (h : Leads program answer (next p.scope) p R) :
    Leads program answer (scope >>= next) p R := h

theorem leads_atEnd {next : Bool → Rule β} (h : Leads program answer (next (program.length ≤ p.cursor)) p R) :
    Leads program answer (atEnd >>= next) p R := h

theorem leads_fail {kind : DiagnosticKind} (h : answer = (some ⟨kind, p.cursor⟩, p.scope)) :
    Leads program answer (fail kind) p P := h

/-- What is demanded holds, or the analysis halts. -/
theorem leads_demand {holds : Bool} {kind : DiagnosticKind} {next : Unit → Rule β}
    (hfail : holds = false → answer = (some ⟨kind, p.cursor⟩, p.scope))
    (hnext : holds = true → Leads program answer (next ()) p R) :
    Leads program answer (demand holds kind >>= next) p R := by
  cases holds with
  | true => exact hnext rfl
  | false => exact hfail rfl

theorem leads_moveTo {index : Nat} {next : Unit → Rule β} (hle : p.cursor ≤ index) (hindex : index ≤ program.length)
    (hnext : Leads program answer (next ()) ⟨index, p.scope⟩ R) :
    Leads program answer (moveTo index >>= next) p R :=
  .bind_done (if_pos ⟨hle, hindex⟩) hle hnext

theorem bump_apply (hlt : p.cursor < program.length) : bump program p = .done () ⟨p.cursor + 1, p.scope⟩ := by
  change moveTo (min (p.cursor + 1) program.length) program p = _
  rw [Nat.min_eq_left hlt, moveTo, if_pos ⟨Nat.le_succ _, hlt⟩]

/-- Behind a lexeme the cursor has moved. -/
theorem leads_bump {next : Unit → Rule β} (hlt : p.cursor < program.length)
    (hnext : Leads program answer (next ()) ⟨p.cursor + 1, p.scope⟩ R) :
    Leads program answer (bump >>= next) p fun b q => p.cursor < q.cursor ∧ R b q :=
  .bind_done (bump_apply hlt) (Nat.le_succ _) (hnext.mono fun _ _ hle hpost => ⟨hle, hpost⟩)

/-- The category of the lexeme at the cursor; the end of the input has none that is asked for. -/
theorem peekIn_apply {categories : List Category} (hnone : Category.unclassified ∉ categories) :
    peekIn categories program p = .done (decide ((lexemeAt program p.cursor).category ∈ categories)) p := by
  change Outcome.done (!decide (program.length ≤ p.cursor) && decide (_ ∈ categories)) p = _
  by_cases hend : program.length ≤ p.cursor
  · have hcategory := (lexemeAt_of_none (List.getElem?_eq_none hend)).1
    simp [hend, hcategory, hnone]
  · simp [hend]

/-! ## Loops -/

section Loops

variable {round : Rule Bool} {I J : Spot → Prop}

/-- A round that goes on has moved the cursor and keeps the invariant; the last one brings about what is wanted. -/
def GoesOn (I J : Spot → Prop) (q : Spot) (again : Bool) (r : Spot) : Prop :=
  if again then q.cursor < r.cursor ∧ I r else J r

/-- There are enough laps for as many rounds as there are lexemes before the end. -/
theorem leads_rounds (hround : ∀ q, I q → Leads program answer round q (GoesOn I J q))
    (hrange : ∀ q, I q → q.cursor ≤ program.length) {laps : Nat} (hlaps : program.length < p.cursor + laps) (h : I p) :
    Leads program answer (rounds round laps) p fun _ q => J q := by
  induction laps generalizing p with
  | zero => exact absurd (hrange p h) (by omega)
  | succ laps ih =>
    refine (hround p h).bind fun again q _ hq => ?_
    cases again with
    | false => exact .pure hq
    | true =>
      have hmoved : p.cursor < q.cursor := hq.1
      exact ih (by omega) hq.2

/-- A loop whose every round moves the cursor ends. -/
theorem leads_loop (hround : ∀ q, I q → Leads program answer round q (GoesOn I J q))
    (hrange : ∀ q, I q → q.cursor ≤ program.length) (h : I p) :
    Leads program answer (loop round) p fun _ q => J q :=
  leads_rounds hround hrange (by omega) h

variable {categories : List Category} {body : Rule Unit}

/-- A lexeme of some categories is taken, or there is none. -/
theorem leads_once (hnone : Category.unclassified ∉ categories)
    (hbody : (lexemeAt program p.cursor).category ∈ categories → p.cursor < program.length ∧
      Leads program answer body ⟨p.cursor + 1, p.scope⟩ fun _ q => I q)
    (hskip : (lexemeAt program p.cursor).category ∉ categories → J p) :
    Leads program answer (once categories body) p (GoesOn I J p) := by
  refine .bind_apply (peekIn_apply hnone) ?_
  by_cases hin : (lexemeAt program p.cursor).category ∈ categories
  · rw [decide_eq_true hin, if_pos rfl]
    obtain ⟨hlt, hleads⟩ := hbody hin
    have hagain : Leads program answer (body >>= fun _ => pure true) ⟨p.cursor + 1, p.scope⟩ fun again q =>
        again = true ∧ I q := hleads.bind fun _ q _ hq => .pure ⟨rfl, hq⟩
    refine (leads_bump hlt hagain).mono ?_
    rintro _ q - ⟨hmoved, rfl, hq⟩
    exact ⟨hmoved, hq⟩
  · rw [decide_eq_false hin]
    exact .pure (hskip hin)

/-- Lexemes of some categories are taken as long as there are any. -/
theorem leads_chain (hnone : Category.unclassified ∉ categories)
    (hbody : ∀ q, I q → (lexemeAt program q.cursor).category ∈ categories → q.cursor < program.length ∧
      Leads program answer body ⟨q.cursor + 1, q.scope⟩ fun _ r => I r)
    (hrange : ∀ q, I q → q.cursor ≤ program.length) (h : I p) :
    Leads program answer (chain categories body) p fun _ q =>
      I q ∧ (lexemeAt program q.cursor).category ∉ categories :=
  leads_loop (fun q hq => leads_once hnone (hbody q hq) fun hskip => ⟨hq, hskip⟩) hrange h

end Loops

/-! ## Comments -/

/-- A part of the program that lies in it. -/
theorem slice_apply {start stop : Nat} (hstart : start ≤ stop) (hstop : stop ≤ program.length) :
    slice start stop program p = .done ((program.take stop).drop start) p := by
  rw [slice, if_pos ⟨hstart, hstop⟩, List.extract_eq_take_drop, List.drop_take]

/-- A comment is skipped as the analysis skips it, and the cursor moves. -/
theorem leads_skipComment {x : Lexeme} (h : At program answer stack p)
    (hfull : (stateAt program stack p).isFull = false) (hx : program[p.cursor]? = some x) (hc : x.category = .comment) :
    Leads program answer skipComment p fun again q =>
      again = true ∧ p.cursor < q.cursor ∧ At program answer stack q ∧ q.scope = p.scope := by
  have hlt := (List.getElem?_eq_some_iff.mp hx).1
  refine leads_peek ?_
  rw [lexemeAt_of_getElem? hx]
  refine leads_demand (fun htext => ?_) fun htext => ?_
  · rw [← h.answers, answerAt_stray hfull hx hc (by simpa using htext)]
  have hcomment := answerAt_comment hfull hx hc (by simpa using htext)
  rw [h.answers] at hcomment
  refine leads_cursor (leads_size (.bind_apply (slice_apply hlt (Nat.le_refl _)) ?_))
  rw [List.take_length]
  cases hk : (program.drop (p.cursor + 1)).findIdx? (·.is .comment closingMark) with
  | none =>
    rw [hk] at hcomment
    exact leads_fail hcomment
  | some k =>
    rw [hk] at hcomment
    obtain ⟨hkl, _⟩ := List.findIdx?_eq_some_iff_getElem.mp hk
    rw [List.length_drop] at hkl
    have hmoved : p.cursor < p.cursor + k + 2 := by omega
    have hrange : p.cursor + k + 2 ≤ program.length := by omega
    exact leads_moveTo (Nat.le_of_lt hmoved) hrange (.pure ⟨rfl, hmoved, ⟨hrange, h.proper, hcomment.symm⟩, rfl⟩)

/-- Whether a stack does not begin by asking for room. -/
def noRoom : List Goal → Bool
  | .room _ :: _ => false
  | _ => true

theorem isFull_of_noRoom (h : noRoom stack = true) : (stateAt program stack p).isFull = false := by
  unfold State.isFull stateAt
  split
  · rename_i hstack
    rw [show stack = _ from hstack] at h
    cases h
  · rfl

/-- The comments at a spot are skipped as the analysis skips them. -/
theorem leads_skipComments (h : At program answer stack p) (hfree : noRoom stack = true) :
    Leads program answer skipComments p fun _ q => Settled program answer stack q ∧ q.scope = p.scope := by
  refine leads_loop (I := fun q => At program answer stack q ∧ q.scope = p.scope) (fun q ⟨hq, hscope⟩ => ?_)
    (fun q hq => hq.1.inRange) ⟨h, rfl⟩
  refine .bind_apply (peekIn_apply (by decide)) ?_
  by_cases hc : (lexemeAt program q.cursor).category = .comment
  case neg =>
    rw [decide_eq_false (by simpa using hc)]
    exact .pure ⟨⟨hq, fun hx => lexemeAt_of_getElem? hx ▸ hc⟩, hscope⟩
  case pos =>
    rw [decide_eq_true (by simpa using hc), if_pos rfl]
    cases hx : program[q.cursor]? with
    | none =>
      rw [(lexemeAt_of_none hx).1] at hc
      cases hc
    | some x =>
      refine (leads_skipComment hq (isFull_of_noRoom hfree) hx (lexemeAt_of_getElem? hx ▸ hc)).mono ?_
      rintro _ r - ⟨rfl, hmoved, hr, hscope'⟩
      exact ⟨hmoved, hr, hscope'.trans hscope⟩

end MiniPascal.Descent
