import Mathlib.Data.Nat.Nth
import MiniPascal.Dictionary.Builtin
import MiniPascal.Proofs.Analysis.Turns
import MiniPascal.Proofs.Branches.Brackets

/-!
# Conditionals and their branches

Whether each `else` of a program can be given an `if` of its own that stands before it (`Matched`).

* `exists_matching_iff`: marks can be matched to earlier ones of the same key exactly if at each of them fewer marks than
  earlier ones of its key have been read.
* `branching_of_reaches`: on its way the analysis has met fewer `else` than `if`, whatever brackets stand between, and closed no
  bracket that is not open.
* `matched_iff`: what an analysis that reports nothing says about the conditionals of a program, and what it does not say.
-/

namespace MiniPascal

variable {program : List Lexeme} {i : Nat}

/-! ## Matching marks -/

section Matching

variable {κ : Type} [DecidableEq κ] {P E : Nat → Prop} [DecidablePred P] [DecidablePred E] (key : Nat → κ)

/-- Matched marks are as many as those that they are matched to. -/
theorem count_lt_of_matching {m : Nat → Nat} (hm : ∀ e, E e → m e < e ∧ P (m e) ∧ key (m e) = key e)
    (hinj : ∀ e e', E e → E e' → m e = m e' → e = e') {e : Nat} (he : E e) :
    Nat.count (fun i => E i ∧ key i = key e) e < Nat.count (fun i => P i ∧ key i = key e) e := by
  have hsucc : Nat.count (fun i => E i ∧ key i = key e) (e + 1) = Nat.count (fun i => E i ∧ key i = key e) e + 1 := by
    rw [Nat.count_succ, if_pos ⟨he, rfl⟩]
  rw [← Nat.succ_le_iff, Nat.succ_eq_add_one, ← hsucc, Nat.count_eq_card_filter_range, Nat.count_eq_card_filter_range]
  refine Finset.card_le_card_of_injOn m ?_ ?_
  · intro i hi
    simp only [Finset.coe_filter, Finset.mem_range, Set.mem_ofPred_eq] at hi ⊢
    obtain ⟨hlt, hE, hkey⟩ := hi
    obtain ⟨hbefore, hP, hsame⟩ := hm i hE
    exact ⟨by omega, hP, hsame.trans hkey⟩
  · intro i hi k hk heq
    simp only [Finset.coe_filter, Finset.mem_range, Set.mem_ofPred_eq] at hi hk
    exact hinj i k hi.2.1 hk.2.1 heq

/-- Marks can be matched to earlier ones of the same key exactly if at each of them fewer marks than earlier ones of its
key have been read. -/
theorem exists_matching_iff :
    (∃ m : Nat → Nat, (∀ e, E e → m e < e ∧ P (m e) ∧ key (m e) = key e) ∧
      ∀ e e', E e → E e' → m e = m e' → e = e') ↔
      ∀ e, E e → Nat.count (fun i => E i ∧ key i = key e) e < Nat.count (fun i => P i ∧ key i = key e) e := by
  constructor
  · rintro ⟨m, hm, hinj⟩ e he
    exact count_lt_of_matching key hm hinj he
  · intro h
    -- the mark with `n` marks of its key before it is matched to the earlier one with `n` of them before it
    let m := fun e => Nat.nth (fun i => P i ∧ key i = key e) (Nat.count (fun i => E i ∧ key i = key e) e)
    have hbound (e : Nat) (he : E e) (hf : (Set.ofPred fun i => P i ∧ key i = key e).Finite) :
        Nat.count (fun i => E i ∧ key i = key e) e < hf.toFinset.card :=
      (h e he).trans_le (Nat.count_le_card hf e)
    refine ⟨m, ?_, ?_⟩
    · intro e he
      obtain ⟨hP, hkey⟩ := Nat.nth_mem _ (hbound e he)
      exact ⟨Nat.nth_lt_of_lt_count (h e he), hP, hkey⟩
    · intro e e' he he' heq
      have hkey : key e = key e' := by
        rw [← (Nat.nth_mem _ (hbound e he)).2, ← (Nat.nth_mem _ (hbound e' he')).2]
        exact congrArg key heq
      have hcount := Nat.count_nth (hbound e he)
      have hcount' := Nat.count_nth (hbound e' he')
      simp only [m, ← hkey] at heq hcount'
      rw [← heq, hcount] at hcount'
      exact Nat.count_injective ⟨he, rfl⟩ ⟨he', hkey.symm⟩ hcount'

end Matching

/-! ## Conditionals -/

/-- Whether the lexeme of an index begins a conditional. -/
def ifAt (program : List Lexeme) (i : Nat) : Prop :=
  (wordAt? program i).any (·.is .conditional "if") = true

/-- Whether the lexeme of an index begins the second branch of a conditional. -/
def elseAt (program : List Lexeme) (i : Nat) : Prop :=
  (wordAt? program i).any (·.is .conditional "else") = true

instance : DecidablePred (ifAt program) := fun _ => inferInstanceAs (Decidable (_ = true))

instance : DecidablePred (elseAt program) := fun _ => inferInstanceAs (Decidable (_ = true))

/-- Each `else` has an `if` of its own before it that fits it. -/
def Matched (program : List Lexeme) (fits : Nat → Nat → Prop) : Prop :=
  ∃ m : Nat → Nat, (∀ e, elseAt program e → m e < e ∧ ifAt program (m e) ∧ fits (m e) e) ∧
    ∀ e e', elseAt program e → elseAt program e' → m e = m e' → e = e'

/-- The number of `if` before a lexeme before which the same brackets are open. -/
def ifsBeside (program : List Lexeme) (e : Nat) : Nat :=
  Nat.count (fun i => ifAt program i ∧ openBrackets program i = openBrackets program e) e

/-- The number of `else` before a lexeme before which the same brackets are open. -/
def elsesBeside (program : List Lexeme) (e : Nat) : Nat :=
  Nat.count (fun i => elseAt program i ∧ openBrackets program i = openBrackets program e) e

/-! ## Waiting conditionals -/

/-- Whether a goal waits for an `else`. -/
def Goal.waits : Goal → Bool
  | .elseBranch _ => true
  | _ => false

section Waits

variable {t t' : ScopeTable} {here : Place} {x : Lexeme} {g : Goal} {new : List Goal}

/-- A statement waits for an `else` if it begins with an `if`. -/
theorem waits_of_begins {context : Context} (h : Begins t x context t' new) :
    new.countP (·.waits) = (if x.is .conditional "if" then 1 else 0) ∧ x.is .conditional "else" = false := by
  cases h <;>
    simp [Goal.waits, *]

/-- Only an `if` makes a goal wait, and each `else` ends the waiting of one. -/
theorem waits_of_takes (hg : g.Plain) (h : g.Takes t here x t' new) :
    new.countP (·.waits) + (if x.is .conditional "else" then 1 else 0) ≤
      [g].countP (·.waits) + if x.is .conditional "if" then 1 else 0 := by
  cases h with
  | operator hb | moreStatements hb =>
    obtain ⟨hcount, helse⟩ := waits_of_begins hb
    rw [hcount, helse]
    simp [Goal.waits]
  | word hx =>
    rw [Lexeme.is_iff] at hx
    have helse : x.is .conditional "else" = false := by
      simp [Lexeme.is, hx, hg.2]
    simp [helse]
  | elseBranch hx => simp [hx, Goal.waits]
  | typeName htype =>
    rw [Lexeme.namedType?_eq_some_iff] at htype
    simp [htype.1, Goal.waits]
  | term ho | operand ho => simp [ho.unclassified]
  | sign hx | moreTerms hx =>
    rcases hx with hx | hx <;> simp [hx, Goal.waits]
  | moreExpressions hx =>
    rcases hx with hx | hx | hx <;> simp [hx, Goal.waits]
  | programWord hx | variableLists hx | comma hx | semicolon hx | beginWord hx | moreOperators hx | endWord hx
  | variableName hx _ | target hx _ | value hx | readTarget hx _ | moreReadTargets hx | moreWritten hx =>
    simp [hx, Goal.waits]

end Waits

/-! ## Conditionals in a run -/

/-- What holds of brackets and conditionals at every place that a run reaches. -/
structure Branching (program : List Lexeme) (i : Nat) (goals : List Goal) (frames : List Frame) : Prop where
  open_le : compoundsIn frames ≤ (openBrackets program i).length
  waiting_le : goals.countP (·.waits) + Nat.count (elseAt program) i ≤ Nat.count (ifAt program) i
  closes : ∀ k < i, ClosesOpened program k
  elses_lt : ∀ e < i, elseAt program e → Nat.count (elseAt program) e < Nat.count (ifAt program) e

/-- The analysis knows no more open brackets than there are, and closes none but those. -/
theorem compoundsIn_of_turns {frames frames' : List Frame} {x : Lexeme} {g : Goal}
    (hx : wordAt? program i = some x) (h : Turns frames x g frames')
    (hle : compoundsIn frames ≤ (openBrackets program i).length) :
    compoundsIn frames' ≤ (openBrackets program (i + 1)).length ∧ ClosesOpened program i := by
  have hcloses (hc : x.category ≠ .compoundClose) : ClosesOpened program i := by
    intro y hy hcat
    obtain rfl := Option.some.inj (hx.symm.trans hy)
    exact absurd hcat hc
  rw [openBrackets, hx]
  cases h with
  | keep _ hc =>
    simp only [blockWords, List.mem_cons, List.not_mem_nil, or_false, not_or] at hc
    rw [bracketsBehind_some hc.2.2.1 hc.2.2.2.1]
    exact ⟨hle, hcloses hc.2.2.2.1⟩
  | program hc => exact ⟨Nat.zero_le _, hcloses (by simp [hc])⟩
  | body hc =>
    rw [bracketsBehind_some (by simp [hc]) (by simp [hc])]
    exact ⟨by simpa using hle, hcloses (by simp [hc])⟩
  | opening hc =>
    simp only [bracketsBehind, Option.map_some, hc, List.length_cons]
    exact ⟨by simpa using hle, hcloses (by simp [hc])⟩
  | closing hc hin =>
    obtain ⟨f, rest, rfl⟩ : ∃ f rest, frames = f :: rest := by
      cases frames with
      | nil => cases hin
      | cons f rest => exact ⟨f, rest, rfl⟩
    have htop : f.compound = true := by simpa using hin
    have hcount : compoundsIn (f :: rest) = compoundsIn rest + 1 := by simp [htop]
    simp only [bracketsBehind, Option.map_some, hc, List.length_tail, List.tail_cons]
    constructor
    · omega
    · intro _ _ _ hnil
      rw [hnil, List.length_nil] at hle
      omega
  | ending hc =>
    rw [bracketsBehind_some (by simp [hc]) (by simp [hc])]
    exact ⟨Nat.le_trans compoundsIn_tail_le hle, hcloses (by simp [hc])⟩
  | declare hc _ hf _ =>
    subst hf
    rw [bracketsBehind_some (by simp [hc]) (by simp [hc])]
    exact ⟨hle, hcloses (by simp [hc])⟩

/-- A run keeps brackets and conditionals in order. -/
theorem branching_of_reaches {s : State} (hi : i ≤ program.length) (h : Reaches program i s) :
    ∃ frames, s.scope.Shows frames ∧ Branching program i s.goals frames := by
  apply invariant_of_turns _ _ _ hi h
  · exact ⟨Nat.zero_le _, by simp [Goal.waits], nofun, nofun⟩
  · intro i goals frames hx hinv
    have hif : ¬ ifAt program i := by simp [ifAt, hx]
    have helse : ¬ elseAt program i := by simp [elseAt, hx]
    have hclose : ClosesOpened program i := by
      intro x hword
      rw [hx] at hword
      cases hword
    constructor
    · rw [openBrackets, hx]
      exact hinv.open_le
    · rw [Nat.count_succ, Nat.count_succ, if_neg hif, if_neg helse]
      exact hinv.waiting_le
    · exact Nat.forall_lt_succ_right.mpr ⟨hinv.closes, hclose⟩
    · exact Nat.forall_lt_succ_right.mpr ⟨hinv.elses_lt, fun hat => absurd hat helse⟩
  · intro i x here passed rest new g t t' frames frames' hx hinv ht hpass hg htakes hturns
    have hwaits := waits_of_takes hg htakes
    have hif : ifAt program i ↔ x.is .conditional "if" := by simp [ifAt, hx]
    have helse : elseAt program i ↔ x.is .conditional "else" := by simp [elseAt, hx]
    have hwaiting := hinv.waiting_le
    rw [← List.singleton_append, List.countP_append, List.countP_append] at hwaiting
    obtain ⟨hopen, hclose⟩ := compoundsIn_of_turns hx hturns hinv.open_le
    constructor
    · exact hopen
    · rw [Nat.count_succ, Nat.count_succ, List.countP_append]
      simp only [hif, helse]
      omega
    · exact Nat.forall_lt_succ_right.mpr ⟨hinv.closes, hclose⟩
    · refine Nat.forall_lt_succ_right.mpr ⟨hinv.elses_lt, ?_⟩
      -- an `else` is taken by a goal that waits, so some `if` before has not been given one
      intro hat
      have hx_else := helse.mp hat
      have hx_if : x.is .conditional "if" = false := by
        rw [Lexeme.is_iff] at hx_else
        simp [hx_else]
      rw [hx_else, hx_if] at hwaits
      simp only [if_pos, Bool.false_eq_true, if_false] at hwaits
      omega

/-! ## Programs without a breach -/

theorem not_elseAt_of_length_le (h : program.length ≤ i) : ¬ elseAt program i := by
  have hword : wordAt? program i = none := by
    rw [wordAt?, List.getElem?_eq_none h]
    simp
  simp [elseAt, hword]

/-- Where nothing is reported each `else` has an `if` of its own before it. Brackets are balanced between the two for
some choice of the `if` exactly if at each `else` more `if` than `else` have been read among those before which the same
brackets are open. -/
theorem matched_iff (h : (analyze program).diagnostic? = none) :
    Matched program (fun _ _ => True) ∧
      (Matched program (Balanced program) ↔ ∀ e, elseAt program e → elsesBeside program e < ifsBeside program e) := by
  have hbreach : breach? program = none := by simpa [diagnostic?_analyze] using h
  obtain ⟨s, hs, _⟩ := breach?_eq_none hbreach
  obtain ⟨frames, _, hinv⟩ := branching_of_reaches (Nat.le_refl _) hs
  have hlt (e : Nat) (he : elseAt program e) : e < program.length := by
    by_contra hge
    exact not_elseAt_of_length_le (by omega) he
  constructor
  · have hall : ∀ e, elseAt program e → Nat.count (fun i => elseAt program i ∧ () = ()) e <
        Nat.count (fun i => ifAt program i ∧ () = ()) e := by
      intro e he
      simpa using hinv.elses_lt e (hlt e he) he
    obtain ⟨m, hm, hinj⟩ := (exists_matching_iff fun _ => ()).mpr hall
    exact ⟨m, fun e he => ⟨(hm e he).1, (hm e he).2.1, trivial⟩, hinj⟩
  · refine Iff.trans ?_ (exists_matching_iff (openBrackets program))
    refine exists_congr fun m => and_congr_left' (forall₂_congr fun e he => ?_)
    refine and_congr_right fun hbefore => and_congr_right fun _ => ?_
    have hend := hlt e he
    apply balanced_iff (by omega)
    intro k hk
    exact hinv.closes k (by omega)

/-- A block that ends in the branch of a conditional that begins in it, with an `else` behind it. -/
def straddling : List Lexeme :=
  tokenize .builtin "program var bool b ; begin [ if b then b := b ] else b := b end"

theorem straddling_else : (analyze straddling).diagnostic? = none ∧ elseAt straddling 14 ∧
    ∀ i < 14, ifAt straddling i → ¬ Balanced straddling i 14 := by
  decide +kernel

theorem straddling_matched_iff :
    (analyze straddling).diagnostic? = none ∧ Matched straddling (fun _ _ => True) ∧
      (Matched straddling (Balanced straddling) ↔
        ∀ e, elseAt straddling e → elsesBeside straddling e < ifsBeside straddling e) :=
  ⟨straddling_else.1, matched_iff straddling_else.1⟩

/-- The `else` behind the bracket is read as that of the conditional before it. -/
theorem straddling_not_matched :
    (analyze straddling).diagnostic? = none ∧ ¬ Matched straddling (Balanced straddling) := by
  obtain ⟨hnothing, helse, hopen⟩ := straddling_else
  refine ⟨hnothing, ?_⟩
  rintro ⟨m, hm, _⟩
  obtain ⟨hlt, hif, hbalanced⟩ := hm 14 helse
  exact hopen (m 14) hlt hif hbalanced

end MiniPascal
