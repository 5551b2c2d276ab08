import MiniPascal.Goal.Reaction
import MiniPascal.Proofs.Grammar.Tree

/-!
# Nesting

How deep the statements of a tree lie, and how deep the analysis counts them.

* `Operator.nesting`, `Program.nesting`: the bodies of loops, branches and blocks around the deepest statement.
* `Tally`: what the analysis keeps count of. Between brackets a body or a branch stays open when its operator has
  ended, so what follows it in the block counts as lying in it; and an `else` goes back to the last conditional that
  still waits for one, in whatever block that stands.
* `Operator.tally?`, `Program.tally?`: the count behind a tree, if it keeps within the limit.
-/

namespace MiniPascal

/-! ## The nesting of statements -/

mutual

/-- The number of bodies, branches and blocks of an operator around its deepest statement. -/
def Operator.nesting : Operator → Nat
  | .declaring _ operator => operator.nesting
  | .assign _ | .read _ _ | .write _ _ => 0
  | .whileDo _ body | .forDo _ _ body => body.nesting + 1
  | .ifThen _ branch => branch.nesting + 1
  | .ifElse _ branch alternative => max branch.nesting alternative.nesting + 1
  | .block operators _ => Operator.nestingOfAll operators

/-- The nesting of the operators of a block, the block counted. -/
def Operator.nestingOfAll : List Operator → Nat
  | [] => 0
  | operator :: rest => max (operator.nesting + 1) (Operator.nestingOfAll rest)

end

def Ending.nesting : Ending → Nat
  | operator o => o.nesting
  | empty _ => 0

def Program.nesting (p : Program) : Nat :=
  (p.operators.map (·.nesting)).foldr max p.ending.nesting

/-! ## The count of the analysis -/

/-- The bodies and branches that are open at some place, and for each conditional that waits for an `else`, the last
one first, the number of those around it. -/
structure Tally where
  depth : Nat
  waiting : List Nat
  deriving DecidableEq

namespace Tally

/-- The count before an operator that stands in no block. -/
def outermost : Tally := ⟨0, []⟩

/-- The count in the body of a loop. -/
def body (c : Tally) : Tally := ⟨c.depth + 1, c.waiting⟩

/-- The count behind a `then`. -/
def branch (c : Tally) : Tally := ⟨c.depth + 1, c.depth :: c.waiting⟩

/-- The count behind an `else`, which the last conditional that waits takes. -/
def alternative (c : Tally) : Tally :=
  match c.waiting with
  | [] => c.body
  | depth :: rest => ⟨depth + 1, rest⟩

end Tally

mutual

/-- The count behind an operator that stands in so many blocks, if there is room for all its statements. -/
def Operator.tally? (blocks : Nat) : Operator → Tally → Option Tally
  | .declaring _ operator, c => operator.tally? blocks c
  | .assign _, c | .read _ _, c | .write _ _, c => if c.depth + blocks ≤ maxNesting then some c else none
  | .whileDo _ body, c | .forDo _ _ body, c => body.tally? blocks c.body
  | .ifThen _ branch, c => branch.tally? blocks c.branch
  | .ifElse _ branch alternative, c =>
    (branch.tally? blocks c.branch).bind fun c => alternative.tally? blocks c.alternative
  | .block operators _, c =>
    if c.depth + (blocks + 1) ≤ maxNesting then Operator.tallyOfAll? (blocks + 1) operators c else none

/-- The count behind operators that stand one behind the other in so many blocks. -/
def Operator.tallyOfAll? (blocks : Nat) : List Operator → Tally → Option Tally
  | [], c => some c
  | operator :: rest, c => (operator.tally? blocks c).bind (Operator.tallyOfAll? blocks rest)

end

/-! ## What the count keeps -/

/-- A later count in the same operator: nothing that was open is closed, and the conditionals that waited still wait
below those that have begun to wait since. -/
structure Tally.Extends (c c' : Tally) : Prop where
  depth : c.depth ≤ c'.depth
  waiting : ∃ later, c'.waiting = later ++ c.waiting ∧ ∀ d ∈ later, c.depth ≤ d

namespace Tally.Extends

variable {c c' c'' : Tally}

theorem refl (c : Tally) : c.Extends c :=
  ⟨Nat.le_refl _, [], rfl, nofun⟩

theorem trans (h : c.Extends c') (h' : c'.Extends c'') : c.Extends c'' := by
  obtain ⟨hd, later, hl, hlater⟩ := h
  obtain ⟨hd', later', hl', hlater'⟩ := h'
  refine ⟨by omega, later' ++ later, by rw [hl', hl, List.append_assoc], ?_⟩
  intro d hmem
  rcases List.mem_append.mp hmem with hmem | hmem
  · have := hlater' d hmem
    omega
  · exact hlater d hmem

theorem body (c : Tally) : c.Extends c.body :=
  ⟨Nat.le_succ _, [], rfl, nofun⟩

theorem branch (c : Tally) : c.Extends c.branch :=
  ⟨Nat.le_succ _, [c.depth], rfl, fun _ hd => Nat.le_of_eq (List.mem_singleton.mp hd).symm⟩

/-- Behind a branch some conditional waits, and what follows its `else` lies no higher than the branch. -/
theorem alternative (h : c.branch.Extends c') : c.Extends c'.alternative ∧ c.depth + 1 ≤ c'.alternative.depth := by
  obtain ⟨_, later, hl, hlater⟩ := h
  cases later with
  | nil =>
    have he : c'.alternative = ⟨c.depth + 1, c.waiting⟩ := by simp [Tally.alternative, hl, Tally.branch]
    rw [he]
    exact ⟨body c, Nat.le_refl _⟩
  | cons d later =>
    have he : c'.alternative = ⟨d + 1, later ++ c.depth :: c.waiting⟩ := by
      simp [Tally.alternative, hl, Tally.branch]
    have hd : c.depth + 1 ≤ d := hlater d List.mem_cons_self
    rw [he]
    refine ⟨⟨show c.depth ≤ d + 1 by omega, later ++ [c.depth], by simp, ?_⟩, by simp; omega⟩
    intro e hmem
    rcases List.mem_append.mp hmem with hmem | hmem
    · have : c.depth + 1 ≤ e := hlater e (List.mem_cons_of_mem _ hmem)
      omega
    · have := List.mem_singleton.mp hmem
      omega

end Tally.Extends

mutual

/-- An operator that is counted to its end leaves a later count, within the limit. -/
theorem tally?_extends : ∀ (o : Operator) {blocks : Nat} {c c' : Tally}, o.tally? blocks c = some c' →
    c.Extends c' ∧ c'.depth + blocks ≤ maxNesting
  | .declaring _ o, _, _, _, h => tally?_extends o h
  | .assign _, _, _, _, h | .read _ _, _, _, _, h | .write _ _, _, _, _, h => by
    simp only [Operator.tally?, Option.ite_none_right_eq_some, Option.some.injEq] at h
    obtain ⟨hroom, rfl⟩ := h
    exact ⟨.refl _, hroom⟩
  | .whileDo _ o, _, _, _, h | .forDo _ _ o, _, _, _, h =>
    ⟨(Tally.Extends.body _).trans (tally?_extends o h).1, (tally?_extends o h).2⟩
  | .ifThen _ o, _, _, _, h => ⟨(Tally.Extends.branch _).trans (tally?_extends o h).1, (tally?_extends o h).2⟩
  | .ifElse _ o o', _, _, _, h => by
    obtain ⟨c₁, ho, ho'⟩ := Option.bind_eq_some_iff.mp h
    have halt := (tally?_extends o ho).1.alternative
    exact ⟨halt.1.trans (tally?_extends o' ho').1, (tally?_extends o' ho').2⟩
  | .block os _, blocks, c, c', h => by
    simp only [Operator.tally?, Option.ite_none_right_eq_some] at h
    have hos := tallyOfAll?_extends os h.2 h.1
    exact ⟨hos.1, by omega⟩

theorem tallyOfAll?_extends : ∀ (os : List Operator) {blocks : Nat} {c c' : Tally},
    Operator.tallyOfAll? blocks os c = some c' → c.depth + blocks ≤ maxNesting →
      c.Extends c' ∧ c'.depth + blocks ≤ maxNesting
  | [], _, _, _, h, hroom => by
    cases h
    exact ⟨.refl _, hroom⟩
  | o :: os, _, _, _, h, _ => by
    obtain ⟨c₁, ho, hos⟩ := Option.bind_eq_some_iff.mp h
    obtain ⟨hext, hroom⟩ := tally?_extends o ho
    obtain ⟨hext', hroom'⟩ := tallyOfAll?_extends os hos hroom
    exact ⟨hext.trans hext', hroom'⟩

end

mutual

/-- The analysis counts no statement higher than it lies. -/
theorem nesting_le_of_tally? : ∀ (o : Operator) {blocks : Nat} {c c' : Tally}, o.tally? blocks c = some c' →
    c.depth + blocks + o.nesting ≤ maxNesting
  | .declaring _ o, _, _, _, h => nesting_le_of_tally? o h
  | .assign _, _, _, _, h | .read _ _, _, _, _, h | .write _ _, _, _, _, h => by
    simp only [Operator.tally?, Option.ite_none_right_eq_some] at h
    exact h.1
  | .whileDo _ o, _, _, _, h | .forDo _ _ o, _, _, _, h | .ifThen _ o, _, _, _, h => by
    have := nesting_le_of_tally? o h
    simp only [Tally.body, Tally.branch] at this
    simp only [Operator.nesting]
    omega
  | .ifElse _ o o', _, _, _, h => by
    obtain ⟨c₁, ho, ho'⟩ := Option.bind_eq_some_iff.mp h
    have hbranch := nesting_le_of_tally? o ho
    have halternative := nesting_le_of_tally? o' ho'
    have hdepth := (tally?_extends o ho).1.alternative.2
    simp only [Tally.branch] at hbranch
    simp only [Operator.nesting]
    omega
  | .block os _, blocks, c, c', h => by
    simp only [Operator.tally?, Option.ite_none_right_eq_some] at h
    have hos := nesting_le_of_tallyOfAll? os h.2 (by omega)
    simp only [Operator.nesting]
    omega

theorem nesting_le_of_tallyOfAll? : ∀ (os : List Operator) {blocks : Nat} {c c' : Tally},
    Operator.tallyOfAll? (blocks + 1) os c = some c' → c.depth + blocks ≤ maxNesting →
      c.depth + blocks + Operator.nestingOfAll os ≤ maxNesting
  | [], _, _, _, _, hroom => hroom
  | o :: os, _, _, _, h, _ => by
    obtain ⟨c₁, ho, hos⟩ := Option.bind_eq_some_iff.mp h
    have hfirst := nesting_le_of_tally? o ho
    have hext := tally?_extends o ho
    have hrest := nesting_le_of_tallyOfAll? os hos (by omega)
    have := hext.1.depth
    simp only [Operator.nestingOfAll]
    omega

end

/-! ## Whole programs -/

/-- Whether the analysis counts all statements and blocks of an operator that stands in no block within the limit. -/
def Operator.keepsLimit (o : Operator) : Bool :=
  (o.tally? 0 .outermost).isSome

def Ending.keepsLimit : Ending → Bool
  | operator o => o.keepsLimit
  | empty _ => true

/-- Whether the analysis counts all statements and blocks of a program within the limit. The operators between `begin` and `end`
are counted one by one. -/
def Program.keepsLimit (p : Program) : Bool :=
  p.operators.all (·.keepsLimit) && p.ending.keepsLimit

theorem Operator.nesting_le_of_keepsLimit {o : Operator} (h : o.keepsLimit) : o.nesting ≤ maxNesting := by
  obtain ⟨c, hc⟩ := Option.isSome_iff_exists.mp h
  have := nesting_le_of_tally? o hc
  omega

theorem Ending.nesting_le_of_keepsLimit {e : Ending} (h : e.keepsLimit) : e.nesting ≤ maxNesting := by
  cases e with
  | operator o => exact Operator.nesting_le_of_keepsLimit h
  | empty _ => exact Nat.zero_le _

/-- A program that the analysis counts within the limit is nested within it. -/
theorem nesting_le_of_keepsLimit {p : Program} (h : p.keepsLimit) : p.nesting ≤ maxNesting := by
  rw [Program.keepsLimit, Bool.and_eq_true] at h
  obtain ⟨hos, he⟩ := h
  unfold Program.nesting
  generalize p.operators = os at hos
  induction os with
  | nil => exact Ending.nesting_le_of_keepsLimit he
  | cons o os ih =>
    rw [List.all_cons, Bool.and_eq_true] at hos
    have hfirst := Operator.nesting_le_of_keepsLimit hos.1
    have hrest := ih hos.2
    rw [List.map_cons, List.foldr_cons]
    omega

end MiniPascal
