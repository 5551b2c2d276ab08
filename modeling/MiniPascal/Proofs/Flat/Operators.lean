import MiniPascal.Proofs.Flat.Parts

/-!
# The operators of an accepting run

Where an operator is awaited on top of a stack that accepts, the lexemes begin with the words of an operator that fills
its place, attaches every `else` to the nearest conditional that waits and keeps within the limit on nesting
(`FlatOperator.Heads`, `exists_operator`). The proof is by induction on the number of lexemes: the operators of bodies
and branches begin further on (`OperatorsWithin`).
-/

namespace MiniPascal

variable {t t' : ScopeTable} {here : Place} {x : Lexeme} {rest : List Goal} {input left : List Lexeme}
  {context : Context} {depth n : Nat}

/-! ## Goals that wait -/

theorem accepts_of_moreStatements (h : Accepts (.moreStatements context :: rest) input) : Accepts rest input := by
  obtain ⟨t, n, ht, htop⟩ := h.top
  cases htop with
  | take hg _ => simp [ht.inCompound] at hg
  | pass _ hrest => exact hrest
  | finish _ hrest => exact hrest

theorem accepts_of_room (h : Accepts (.room depth :: rest) input) : Accepts rest input := by
  rcases h.take_or_rest with ⟨_, _, _, _, _, _, _, _, htakes, _⟩ | hrest
  · cases htakes
  · exact hrest

/-- Behind a branch an `else` is taken, and nothing else. -/
theorem accepts_of_elseBranch (h : Accepts (.elseBranch context :: rest) (x :: left)) :
    x.canonical = elseWord ∧ Accepts (.operator context.inner :: rest) left ∨
      x.canonical ≠ elseWord ∧ Accepts rest (x :: left) := by
  obtain ⟨t, n, ht, htop⟩ := h.top
  cases htop with
  | take hg hnew =>
    cases takes_of_onLexeme hg with
    | elseBranch hx => exact .inl ⟨canonical_of_is hx (by decide), accepts_of_room hnew⟩
  | pass hp hrest =>
    refine .inr ⟨fun hx => ?_, hrest⟩
    have hc : x.category = .conditional := congrArg Word.category hx
    rw [canonical_eq hc (by decide)] at hx
    have htext : x.text = "else" := congrArg Word.text hx
    simp [hc, htext] at hp

/-! ## The place of an operator -/

/-- Where a lexeme at the place of an operator is not refused, there is room. -/
theorem hasRoom_of_begin {r : Reaction} (h : beginStatement t here x context = r) (hr : ∀ halt, r ≠ .refuse halt) :
    t.hasRoom context.depth := by
  unfold beginStatement at h
  split at h
  · exact absurd h.symm (hr _)
  · simp_all

/-- An operator is empty directly before `end` or, in a branch, directly before `else`. -/
theorem canonical_of_pass (h : beginStatement t here x context = .pass) :
    x.canonical = endWord ∨ context.inBranch ∧ x.canonical = elseWord := by
  unfold beginStatement at h
  split at h
  · cases h
  split at h
  case h_2 hx => exact .inl (canonical_eq hx (by decide))
  case h_9 hx =>
    cases ha : assignTo t here x <;> rw [ha] at h
    case pass => exact absurd ha assignTo_ne_pass
    all_goals cases h
  case h_10 hx =>
    split at h
    · cases h
    split at h
    · rename_i helse
      rw [Bool.and_eq_true, decide_eq_true_eq] at helse
      exact .inr ⟨helse.1, canonical_of_is (Lexeme.is_iff.mpr ⟨hx, helse.2⟩) (by decide)⟩
    · cases h
  all_goals first | cases h | (split at h <;> cases h)

/-- An operator stands at the head of the input, before the next lexeme, and is right for its place. -/
structure FlatOperator.Heads (o : FlatOperator) (context : Context) (input : List Lexeme) (next : Lexeme)
    (left : List Lexeme) : Prop where
  reads : Reads input o.words (next :: left)
  fills : o.fills context.inBranch next.canonical
  nearest : o.nearest next.canonical
  nesting : context.depth + o.nesting ≤ maxNesting

/-- Some operator stands at the head of the input, and the goals accept what is left behind it. -/
def FindsOperator (context : Context) (rest : List Goal) (input : List Lexeme) : Prop :=
  ∃ (o : FlatOperator) (next : Lexeme) (left : List Lexeme), o.Heads context input next left ∧
    Accepts rest (next :: left)

/-- Operators are found at the head of every input that is shorter than the given length. -/
def OperatorsWithin (n : Nat) : Prop :=
  ∀ {context : Context} {rest : List Goal} {input : List Lexeme}, input.length < n → .endWord ∈ rest →
    Accepts (.operator context :: rest) input → FindsOperator context rest input

/-- An operator without operators in it is found where its words are read. -/
theorem findsOperator_of_reads {o : FlatOperator} (hend : .endWord ∈ rest) (hroom : context.depth ≤ maxNesting)
    (hnesting : o.nesting = 0) (hreads : Reads input o.words left)
    (hplace : ∀ next, o.fills context.inBranch next ∧ o.nearest next)
    (h : Accepts (.moreStatements context :: rest) left) : FindsOperator context rest input := by
  have hrest := accepts_of_moreStatements h
  obtain ⟨next, left, rfl⟩ := List.exists_cons_of_ne_nil (hrest.ne_nil hend)
  exact ⟨o, next, left, ⟨hreads, (hplace _).1, (hplace _).2, by omega⟩, hrest⟩

/-! ## Statements with operators in them -/

theorem exists_while (ih : OperatorsWithin (left.length + 1)) (hend : .endWord ∈ rest) (hx : x.category = .whileWord)
    (h : Accepts (whileGoals context ++ .moreStatements context :: rest) left) :
    FindsOperator context rest (x :: left) := by
  have h : Accepts (comparison ++ .word .doWord "do" :: .operator context.inner :: .moreStatements context :: rest) left :=
    h
  obtain ⟨condition, left₁, hproper, hcondition, h₁⟩ := exists_condition h
  obtain ⟨left₂, hdo, h₂⟩ := exists_word h₁
  have hlt : left₂.length < left.length + 1 := by
    have := hcondition.length
    have := hdo.length
    omega
  obtain ⟨body, next, left₃, hbody, h₃⟩ := ih hlt (by simp [hend]) h₂
  refine ⟨.whileDo condition body, next, left₃, ⟨?_, ?_, hbody.nearest, ?_⟩, accepts_of_moreStatements h₃⟩
  · exact .cons (canonical_eq hx (by decide)) (hcondition.append (hdo.append hbody.reads))
  · have : body.fills context.inBranch next.canonical := hbody.fills
    simpa [FlatOperator.fills, hproper] using this
  · have : context.depth + 1 + body.nesting ≤ maxNesting := hbody.nesting
    simp only [FlatOperator.nesting]
    omega

theorem exists_for (ih : OperatorsWithin (left.length + 1)) (hend : .endWord ∈ rest) (hx : x.category = .cycle)
    (htext : x.text = "for") (h : Accepts (forGoals context ++ .moreStatements context :: rest) left) :
    FindsOperator context rest (x :: left) := by
  have h : Accepts (.target :: .word .cycle "to" :: (comparison ++ .word .doWord "do" :: .operator context.inner ::
      .moreStatements context :: rest)) left := h
  obtain ⟨t, here, y, left₁, t', new, ht, rfl, htakes, h₁⟩ := h.take rfl
  cases htakes with
  | target hy hknown =>
    obtain ⟨start, left₂, hstart, hassign, h₂⟩ := exists_assignment ht hy hknown h₁
    obtain ⟨left₃, hto, h₃⟩ := exists_word h₂
    obtain ⟨limit, left₄, hlimit, hcondition, h₄⟩ := exists_condition h₃
    obtain ⟨left₅, hdo, h₅⟩ := exists_word h₄
    have hlt : left₅.length < (y :: left₁).length + 1 := by
      have := hassign.length
      have := hto.length
      have := hcondition.length
      have := hdo.length
      omega
    obtain ⟨body, next, left₆, hbody, h₆⟩ := ih hlt (by simp [hend]) h₅
    refine ⟨.forDo start limit body, next, left₆, ⟨?_, ?_, hbody.nearest, ?_⟩, accepts_of_moreStatements h₆⟩
    · have hfor : x.canonical = ⟨.cycle, "for"⟩ := canonical_of_is (Lexeme.is_iff.mpr ⟨hx, htext⟩) (by decide)
      have := hassign.append (hto.append (hcondition.append (hdo.append hbody.reads)))
      simpa [FlatOperator.words] using Reads.cons hfor this
    · have : body.fills context.inBranch next.canonical := hbody.fills
      simpa [FlatOperator.fills, hstart, hlimit] using this
    · have : context.depth + 1 + body.nesting ≤ maxNesting := hbody.nesting
      simp only [FlatOperator.nesting]
      omega

theorem exists_if (ih : OperatorsWithin (left.length + 1)) (hend : .endWord ∈ rest) (hx : x.category = .conditional)
    (htext : x.text = "if") (h : Accepts (ifGoals context ++ .moreStatements context :: rest) left) :
    FindsOperator context rest (x :: left) := by
  have h : Accepts (comparison ++ .word .conditional "then" :: .operator context.branch :: .elseBranch context ::
      .moreStatements context :: rest) left := h
  have hif : x.canonical = ⟨.conditional, "if"⟩ := canonical_of_is (Lexeme.is_iff.mpr ⟨hx, htext⟩) (by decide)
  obtain ⟨condition, left₁, hproper, hcondition, h₁⟩ := exists_condition h
  obtain ⟨left₂, hthen, h₂⟩ := exists_word h₁
  have hlt : left₂.length < left.length + 1 := by
    have := hcondition.length
    have := hthen.length
    omega
  obtain ⟨branch, next, left₃, hbranch, h₃⟩ := ih hlt (by simp [hend]) h₂
  have hfills := hbranch.fills
  have hnearest := hbranch.nearest
  have hnesting : context.depth + 1 + branch.nesting ≤ maxNesting := hbranch.nesting
  rcases accepts_of_elseBranch h₃ with ⟨helse, h₄⟩ | ⟨hnext, h₄⟩
  · have hlt' : left₃.length < left.length + 1 := by
      have := hbranch.reads.length
      simp only [List.length_cons] at this
      omega
    obtain ⟨alternative, next', left₄, halternative, h₅⟩ := ih hlt' (by simp [hend]) h₄
    have hnesting' : context.depth + 1 + alternative.nesting ≤ maxNesting := halternative.nesting
    refine ⟨.ifElse condition branch alternative, next', left₄, ⟨?_, ?_, ?_, ?_⟩, accepts_of_moreStatements h₅⟩
    · have := hcondition.append (hthen.append (hbranch.reads.append (.cons helse halternative.reads)))
      simpa [FlatOperator.words] using Reads.cons hif this
    · rw [helse] at hfills
      simp only [FlatOperator.fills, Bool.and_eq_true]
      exact ⟨⟨hproper, hfills⟩, halternative.fills⟩
    · rw [helse] at hnearest
      rw [FlatOperator.nearest, Bool.and_eq_true]
      exact ⟨hnearest, halternative.nearest⟩
    · simp only [FlatOperator.nesting]
      omega
  · refine ⟨.ifThen condition branch, next, left₃, ⟨?_, ?_, ?_, ?_⟩, accepts_of_moreStatements h₄⟩
    · exact .cons hif (hcondition.append (hthen.append hbranch.reads))
    · rw [FlatOperator.fills, Bool.and_eq_true]
      exact ⟨hproper, hfills⟩
    · simpa [FlatOperator.nearest, hnext] using hnearest
    · simp only [FlatOperator.nesting]
      omega

/-! ## All operators -/

/-- Where an operator is awaited, one stands at the head of the input. -/
theorem exists_operator (hend : .endWord ∈ rest) (h : Accepts (.operator context :: rest) input) :
    FindsOperator context rest input := by
  suffices hall : ∀ n, OperatorsWithin n from hall _ (Nat.lt_succ_self _) hend h
  intro n
  induction n with
  | zero => exact fun hlt => absurd hlt (Nat.not_lt_zero _)
  | succ n ih =>
    intro context rest input hlt hend h
    have hflat := h.flat
    obtain ⟨t, m, ht, htop⟩ := h.top
    cases htop with
    | finish _ hrest => exact absurd rfl (hrest.ne_nil hend)
    | @pass x left hp hrest =>
      have hroom := ht.hasRoom_iff.mp (hasRoom_of_begin hp nofun)
      refine ⟨.empty, x, left, ⟨.refl _, ?_, rfl, hroom⟩, hrest⟩
      simpa [FlatOperator.fills] using canonical_of_pass hp
    | @take x left t' new hg hnew =>
      have hroom := ht.hasRoom_iff.mp (hasRoom_of_begin hg nofun)
      have ih : OperatorsWithin (left.length + 1) := fun hlt' => ih (by simp at hlt; omega)
      have hx := hflat x List.mem_cons_self
      simp only [List.mem_cons, List.not_mem_nil, or_false, not_or] at hx
      cases begins_of_take hg with
      | opening hx' => exact absurd hx' hx.2.1
      | closing hx' _ => exact absurd hx' hx.2.2
      | var hx' =>
        obtain ⟨l, left₁, hproper, hlist, h₁⟩ := exists_list hx' hnew
        have hlt' : left₁.length < left.length + 1 := by
          have := hlist.length
          simp [VariableList.words] at this
          omega
        obtain ⟨o, next, left₂, ho, h₂⟩ := ih hlt' hend h₁
        refine ⟨.declaring l o, next, left₂, ⟨hlist.append ho.reads, ?_, ho.nearest, ho.nesting⟩, h₂⟩
        simpa [FlatOperator.fills, hproper] using ho.fills
      | assign hx' hknown =>
        obtain ⟨a, left₁, hproper, hassign, h₁⟩ := exists_assignment ht hx' hknown hnew
        exact findsOperator_of_reads (o := .assign a) hend hroom rfl hassign (fun _ => ⟨hproper, rfl⟩) h₁
      | read hx' =>
        have hnew : Accepts (readGoals ++ .moreStatements context :: rest) left := hnew
        obtain ⟨first, more, left₁, hall, hread, h₁⟩ := exists_read hnew
        exact findsOperator_of_reads (o := .read first more) hend hroom rfl (.cons (canonical_eq hx' (by decide)) hread)
          (fun _ => ⟨hall, rfl⟩) h₁
      | write hx' =>
        have hnew : Accepts (writeGoals ++ .moreStatements context :: rest) left := hnew
        obtain ⟨first, more, left₁, hall, hwrite, h₁⟩ := exists_write hnew
        exact findsOperator_of_reads (o := .write first more) hend hroom rfl (.cons (canonical_eq hx' (by decide)) hwrite)
          (fun _ => ⟨hall, rfl⟩) h₁
      | whileDo hx' => exact exists_while ih hend hx' (by simpa using hnew)
      | forDo hx' htext => exact exists_for ih hend hx' htext (by simpa using hnew)
      | conditional hx' htext => exact exists_if ih hend hx' htext (by simpa using hnew)

end MiniPascal
