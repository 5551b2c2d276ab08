import MiniPascal.Proofs.Flat.Tree
import MiniPascal.Proofs.Grammar.Operators

/-!
# Words without brackets have one tree

A part of a tree can be told from its words as far as the word behind it does not go on with the part (`Told`). A chain
of pieces is told where each piece begins with a word that goes on with the chain and ends the piece before
(`Links`, `told_chain`); so lists of variables and conditions are told. An operator is told from its words and the word
behind it if it fills its place and every `else` belongs to the nearest conditional that waits (`told_operator`), and a
program from its words alone (`FlatProgram.eq_of_words`).
-/

namespace MiniPascal

variable {α : Type} {piece : α → List Word} {proper : α → Bool} {inner outer : List Category} {ws ws' : List Word}
  {next next' : Word} {inThen inThen' : Bool}

/-! ## Chains -/

/-- A part and the words behind it are told from all these words, where the word behind it is of none of the given
categories. -/
def Told (words : α → List Word) (proper : α → Bool) (stops : List Category) : Prop :=
  ∀ {a a' : α} {ws ws' : List Word}, proper a → proper a' → Ends stops ws → Ends stops ws' →
    words a ++ ws = words a' ++ ws' → a = a' ∧ ws = ws'

/-- A piece begins with a word that goes on with a chain and ends the piece before it. -/
structure Links (piece : α → List Word) (inner outer : List Category) : Prop where
  start (a : α) : ∃ w ws, piece a = w :: ws ∧ w.category ∈ outer ∧ w.category ∉ inner
  stops : inner ⊆ outer

/-- Where more pieces or the end of a chain stand, a piece ends. -/
theorem Links.ends (hlinks : Links piece inner outer) (as : List α) (h : Ends outer ws) :
    Ends inner (as.flatMap piece ++ ws) := by
  cases as with
  | nil => exact h.mono hlinks.stops
  | cons a as =>
    obtain ⟨w, rest, hw, _, hinner⟩ := hlinks.start a
    rw [List.flatMap_cons, hw]
    exact ends_cons hinner

/-- Where a chain ends no piece begins. -/
theorem Links.ne (hlinks : Links piece inner outer) (a : α) (h : Ends outer ws') : piece a ++ ws ≠ ws' := by
  obtain ⟨w, rest, rfl, hw⟩ := h
  obtain ⟨v, vs, hv, houter, _⟩ := hlinks.start a
  rw [hv, List.cons_append]
  intro he
  exact hw ((List.cons.inj he).1 ▸ houter)

/-- A chain is told if its pieces are. -/
theorem told_chain (hlinks : Links piece inner outer) (hpiece : Told piece proper inner) {as as' : List α}
    (has : as.all proper) (has' : as'.all proper) (hws : Ends outer ws) (hws' : Ends outer ws')
    (h : as.flatMap piece ++ ws = as'.flatMap piece ++ ws') : as = as' ∧ ws = ws' := by
  induction as generalizing as' with
  | nil =>
    cases as' with
    | nil => exact ⟨rfl, h⟩
    | cons a' as' =>
      rw [List.flatMap_nil, List.nil_append, List.flatMap_cons, List.append_assoc] at h
      exact absurd h.symm (hlinks.ne a' hws)
  | cons a as ih =>
    cases as' with
    | nil =>
      rw [List.flatMap_nil, List.nil_append, List.flatMap_cons, List.append_assoc] at h
      exact absurd h (hlinks.ne a hws')
    | cons a' as' =>
      simp only [List.all_cons, Bool.and_eq_true] at has has'
      simp only [List.flatMap_cons, List.append_assoc] at h
      obtain ⟨rfl, hrest⟩ := hpiece has.1 has'.1 (hlinks.ends as hws) (hlinks.ends as' hws') h
      obtain ⟨rfl, rfl⟩ := ih has.2 has'.2 hrest
      exact ⟨rfl, rfl⟩

/-! ## Expressions and conditions -/

theorem Operand.eq_of_word {o o' : Operand} (ho : o.proper) (ho' : o'.proper) (h : o.word = o'.word) : o = o' := by
  have hliteral : ∀ {name : String}, isIdentifier name → (DataType.ofLiteral? name).isSome → False := by
    intro name hname hsome
    simp [ofLiteral?_of_isIdentifier hname] at hsome
  cases o <;> cases o' <;> cases h
  · rfl
  · exact (hliteral ho ho').elim
  · exact (hliteral ho' ho).elim
  · rfl

theorem Sign.word_ne (sign : Sign) (o : Operand) : sign.word ≠ o.word := by
  cases sign <;> cases o <;> simp [Sign.word, Operand.word]

theorem Sign.word_injective : Function.Injective Sign.word := by
  intro s s' h
  cases s <;> cases s' <;> cases h <;> rfl

theorem told_term : Told Term.words Term.proper [] := by
  rintro ⟨sign?, o⟩ ⟨sign?', o'⟩ ws ws' ho ho' _ _ h
  have hoperand : o.word = o'.word → o = o' := Operand.eq_of_word ho ho'
  cases sign? with
  | none =>
    cases sign?' with
    | none =>
      obtain ⟨hword, hrest⟩ := List.cons.inj h
      exact ⟨by rw [hoperand hword], hrest⟩
    | some sign' => exact absurd (List.cons.inj h).1.symm (sign'.word_ne o)
  | some sign =>
    cases sign?' with
    | none => exact absurd (List.cons.inj h).1 (sign.word_ne o')
    | some sign' =>
      obtain ⟨hsign, htail⟩ := List.cons.inj h
      obtain ⟨hword, hrest⟩ := List.cons.inj htail
      exact ⟨by rw [Sign.word_injective hsign, hoperand hword], hrest⟩

/-- A word that is told before a part is told with it. -/
theorem Told.joined {β : Type} {word : β → Word} (h : Told piece proper inner) (hword : Function.Injective word) :
    Told (fun m : β × α => word m.1 :: piece m.2) (fun m => proper m.2) inner := by
  intro m m' ws ws' hm hm' hws hws' he
  obtain ⟨hfirst, hpart⟩ := List.cons.inj he
  obtain ⟨hsecond, hrest⟩ := h hm hm' hws hws' hpart
  exact ⟨Prod.ext (hword hfirst) hsecond, hrest⟩

theorem Joint.word_injective : Function.Injective Joint.word := by
  intro j j' h
  cases j <;> cases j' <;> cases h <;> rfl

theorem Connective.word_injective : Function.Injective Connective.word := by
  intro c c' h
  cases c <;> cases c' <;> cases h <;> rfl

theorem links_moreTerms : Links (fun m : Joint × Term => m.1.word :: m.2.words) [] inExpression where
  start m := ⟨_, _, rfl, by cases m.1 <;> simp [Joint.word, inExpression], List.not_mem_nil⟩
  stops := List.nil_subset _

theorem told_expression : Told Expression.words Expression.proper inExpression := by
  rintro ⟨first, more⟩ ⟨first', more'⟩ ws ws' hp hp' hws hws' h
  simp only [Expression.proper, Bool.and_eq_true] at hp hp'
  simp only [Expression.words, List.append_assoc] at h
  obtain ⟨rfl, hmore⟩ := told_term hp.1 hp'.1 (links_moreTerms.ends more hws) (links_moreTerms.ends more' hws') h
  obtain ⟨rfl, hrest⟩ := told_chain links_moreTerms (Told.joined told_term Joint.word_injective) hp.2 hp'.2 hws hws' hmore
  exact ⟨rfl, hrest⟩

theorem links_moreExpressions :
    Links (fun m : Connective × Expression => m.1.word :: m.2.words) inExpression inCondition where
  start m := by
    refine ⟨_, _, rfl, ?_⟩
    cases m.1 <;> simp [Connective.word, inCondition, inExpression]
  stops := by decide

theorem told_condition : Told Condition.words Condition.proper inCondition := by
  rintro ⟨first, more⟩ ⟨first', more'⟩ ws ws' hp hp' hws hws' h
  simp only [Condition.proper, Bool.and_eq_true] at hp hp'
  simp only [Condition.words, List.append_assoc] at h
  obtain ⟨rfl, hmore⟩ := told_expression hp.1 hp'.1 (links_moreExpressions.ends more hws)
    (links_moreExpressions.ends more' hws') h
  obtain ⟨rfl, hrest⟩ := told_chain links_moreExpressions (Told.joined told_expression Connective.word_injective)
    hp.2 hp'.2 hws hws' hmore
  exact ⟨rfl, hrest⟩

theorem told_assignment : Told Assignment.words Assignment.proper inExpression := by
  rintro ⟨target, becomes, value⟩ ⟨target', becomes', value'⟩ ws ws' hp hp' hws hws' h
  simp only [Assignment.proper, Bool.and_eq_true] at hp hp'
  simp only [Assignment.words, nameWord, List.cons_append, List.cons.injEq, Word.mk.injEq, true_and] at h
  obtain ⟨rfl, rfl, hvalue⟩ := h
  obtain ⟨rfl, hrest⟩ := told_expression hp.2 hp'.2 hws hws' hvalue
  exact ⟨rfl, hrest⟩

/-! ## Lists of variables -/

theorem told_name : Told (fun name => [commaWord, nameWord name]) isIdentifier [] := by
  intro name name' ws ws' _ _ _ _ h
  simpa [nameWord] using h

theorem links_names : Links (fun name => [commaWord, nameWord name]) [] [.comma] where
  start _ := ⟨_, _, rfl, List.mem_singleton.mpr rfl, List.not_mem_nil⟩
  stops := List.nil_subset _

theorem DataType.name_injective : Function.Injective DataType.name := by
  intro type type' h
  have := DataType.ofName?_name type
  rw [h, DataType.ofName?_name] at this
  exact (Option.some.inj this).symm

/-- The semicolon behind a list of variables is told where none comes behind the list. -/
theorem told_semicolon : Told (fun semicolon : Bool => if semicolon then [semicolonWord] else []) (fun _ => true) inList := by
  intro semicolon semicolon' ws ws' _ _ hws hws' h
  obtain ⟨w, rest, rfl, hw⟩ := hws
  obtain ⟨w', rest', rfl, hw'⟩ := hws'
  cases semicolon <;> cases semicolon'
  · exact ⟨rfl, h⟩
  · obtain rfl : w = semicolonWord := (List.cons.inj h).1
    exact absurd (by decide) hw
  · obtain rfl : semicolonWord = w' := (List.cons.inj h).1
    exact absurd (by decide) hw'
  · exact ⟨rfl, (List.cons.inj h).2⟩

theorem told_list : Told VariableList.words VariableList.proper inList := by
  rintro ⟨type, first, more, semicolon⟩ ⟨type', first', more', semicolon'⟩ ws ws' hp hp' hws hws' h
  simp only [VariableList.proper, List.all_cons, Bool.and_eq_true] at hp hp'
  simp only [VariableList.words, nameWord, List.cons_append, List.append_assoc, List.cons.injEq, Word.mk.injEq,
    true_and] at h
  obtain ⟨htype, rfl, hnames⟩ := h
  have hends : ∀ (semicolon : Bool) {ws : List Word}, Ends inList ws →
      Ends [.comma] ((if semicolon then [semicolonWord] else []) ++ ws) := by
    intro semicolon ws hws
    cases semicolon with
    | false => exact hws.mono (by decide)
    | true => exact ends_cons (by decide)
  obtain ⟨rfl, hsemicolon⟩ := told_chain links_names told_name hp.2 hp'.2 (hends semicolon hws) (hends semicolon' hws')
    hnames
  obtain ⟨rfl, hrest⟩ := told_semicolon rfl rfl hws hws' hsemicolon
  exact ⟨by rw [DataType.name_injective htype], hrest⟩

theorem links_lists : Links VariableList.words inList (.varWord :: inList) where
  start l := ⟨_, _, rfl, List.mem_cons_self, by decide⟩
  stops := List.subset_cons_self _ _

/-! ## Operators -/

theorem links_written : Links (fun c : Condition => commaWord :: c.words) inCondition (.comma :: inCondition) where
  start _ := ⟨_, _, rfl, List.mem_cons_self, by decide⟩
  stops := List.subset_cons_self _ _

theorem told_written : Told (fun c : Condition => commaWord :: c.words) Condition.proper inCondition :=
  fun hp hp' hws hws' h => told_condition hp hp' hws hws' (List.cons.inj h).2

/-- A condition is told from the words behind the first word of a statement, if the word behind it does not go on with
it. -/
theorem told_between {c c' : Condition} {w v : Word} (hv : v.category ∉ inCondition) (hc : c.proper) (hc' : c'.proper)
    (h : w :: (c.words ++ v :: ws) = w :: (c'.words ++ v :: ws')) : c = c' ∧ ws = ws' := by
  obtain ⟨hconditions, hrest⟩ := told_condition hc hc' (ends_cons hv) (ends_cons hv) (List.cons.inj h).2
  exact ⟨hconditions, (List.cons.inj hrest).2⟩

/-- The words behind operators. -/
def closers : List Word := [semicolonWord, endWord, elseWord]

/-- No word behind an operator goes on with a condition. -/
theorem ends_closer (h : next ∈ closers) : Ends inCondition (next :: ws) := by
  have hall : ∀ w ∈ closers, w.category ∉ inCondition := by decide
  exact ends_cons (hall next h)

/-- Where an operator fills its place, what stands before it has ended. -/
theorem FlatOperator.ends {o : FlatOperator} (h : o.fills inThen next) : Ends inList (o.words ++ next :: ws) := by
  cases o with
  | empty =>
    simp only [FlatOperator.fills, Bool.or_eq_true, Bool.and_eq_true, decide_eq_true_eq] at h
    rcases h with rfl | ⟨_, rfl⟩ <;> exact ends_cons (by decide)
  | declaring l o => exact ends_cons (show Category.varWord ∉ inList by decide)
  | assign a => exact ends_cons (show Category.unclassified ∉ inList by decide)
  | read first more => exact ends_cons (show Category.readWord ∉ inList by decide)
  | write first more => exact ends_cons (show Category.writeWord ∉ inList by decide)
  | whileDo condition body => exact ends_cons (show Category.whileWord ∉ inList by decide)
  | forDo start limit body => exact ends_cons (show Category.cycle ∉ inList by decide)
  | ifThen condition branch => exact ends_cons (show Category.conditional ∉ inList by decide)
  | ifElse condition branch alternative => exact ends_cons (show Category.conditional ∉ inList by decide)

/-- The category of the word that an operator begins with. -/
def FlatOperator.lead? : FlatOperator → Option Category
  | empty => none
  | declaring _ _ => some .varWord
  | assign _ => some .unclassified
  | read _ _ => some .readWord
  | write _ _ => some .writeWord
  | whileDo _ _ => some .whileWord
  | forDo _ _ _ => some .cycle
  | ifThen _ _ | ifElse _ _ _ => some .conditional

/-- An operator that is not empty begins with a word that stands behind none. -/
theorem FlatOperator.lead?_spec (o : FlatOperator) :
    o.words = [] ∧ o.lead? = none ∨ ∃ w ws, o.words = w :: ws ∧ w ∉ closers ∧ o.lead? = some w.category := by
  cases o with
  | empty => exact .inl ⟨rfl, rfl⟩
  | _ => exact .inr ⟨_, _, rfl, by simp [closers, semicolonWord, endWord, elseWord, nameWord], rfl⟩

/-- Operators begin alike where their words and the words behind them are the same. -/
theorem FlatOperator.lead?_eq {o o' : FlatOperator} (hnext : next ∈ closers) (hnext' : next' ∈ closers)
    (h : o.words ++ next :: ws = o'.words ++ next' :: ws') : o.lead? = o'.lead? := by
  rcases o.lead?_spec with ⟨hw, hlead⟩ | ⟨w, rest, hw, hnot, hlead⟩ <;>
    rcases o'.lead?_spec with ⟨hw', hlead'⟩ | ⟨w', rest', hw', hnot', hlead'⟩ <;> rw [hw, hw'] at h
  · rw [hlead, hlead']
  · exact absurd ((List.cons.inj h).1 ▸ hnext) hnot'
  · exact absurd ((List.cons.inj h).1 ▸ hnext') hnot
  · rw [hlead, hlead', (List.cons.inj h).1]

/-- An operator that fills its place and attaches every `else` to the nearest conditional that waits is told from its
words and the word behind it. -/
theorem told_operator (o : FlatOperator) {o' : FlatOperator} (hf : o.fills inThen next) (hf' : o'.fills inThen' next')
    (hn : o.nearest next) (hn' : o'.nearest next') (hnext : next ∈ closers) (hnext' : next' ∈ closers)
    (h : o.words ++ next :: ws = o'.words ++ next' :: ws') : o = o' ∧ next = next' ∧ ws = ws' := by
  induction o generalizing o' inThen inThen' next next' ws ws' with
  | empty =>
    cases o' with
    | empty => exact ⟨rfl, List.cons.inj h⟩
    | _ => cases FlatOperator.lead?_eq hnext hnext' h
  | declaring l o ih =>
    cases o' with
    | declaring l' o' =>
      simp only [FlatOperator.fills, Bool.and_eq_true] at hf hf'
      simp only [FlatOperator.words, List.append_assoc] at h
      obtain ⟨rfl, ho⟩ := told_list hf.1 hf'.1 (FlatOperator.ends hf.2) (FlatOperator.ends hf'.2) h
      obtain ⟨rfl, hrest⟩ := ih hf.2 hf'.2 hn hn' hnext hnext' ho
      exact ⟨rfl, hrest⟩
    | _ => cases FlatOperator.lead?_eq hnext hnext' h
  | assign a =>
    cases o' with
    | assign a' =>
      obtain ⟨rfl, hrest⟩ := told_assignment hf hf' (ends_closer hnext).ofCondition (ends_closer hnext').ofCondition h
      exact ⟨rfl, List.cons.inj hrest⟩
    | _ => cases FlatOperator.lead?_eq hnext hnext' h
  | read first more =>
    cases o' with
    | read first' more' =>
      simp only [FlatOperator.fills, List.all_cons, Bool.and_eq_true] at hf hf'
      simp only [FlatOperator.words, nameWord, List.cons_append, List.append_assoc, List.cons.injEq, Word.mk.injEq,
        true_and, List.nil_append] at h
      obtain ⟨rfl, hmore⟩ := h
      obtain ⟨rfl, hrest⟩ := told_chain links_names told_name hf.2 hf'.2 (ends_cons (by decide)) (ends_cons (by decide))
        hmore
      exact ⟨rfl, List.cons.inj (List.cons.inj hrest).2⟩
    | _ => cases FlatOperator.lead?_eq hnext hnext' h
  | write first more =>
    cases o' with
    | write first' more' =>
      simp only [FlatOperator.fills, List.all_cons, Bool.and_eq_true] at hf hf'
      simp only [FlatOperator.words, List.cons_append, List.append_assoc, List.cons.injEq, true_and,
        List.nil_append] at h
      have hends : ∀ {ws : List Word}, Ends (.comma :: inCondition) (⟨.parenthesis, ")"⟩ :: ws) := ends_cons (by decide)
      obtain ⟨rfl, hmore⟩ := told_condition hf.1 hf'.1 (links_written.ends more hends) (links_written.ends more' hends) h
      obtain ⟨rfl, hrest⟩ := told_chain links_written told_written hf.2 hf'.2 hends hends hmore
      exact ⟨rfl, List.cons.inj (List.cons.inj hrest).2⟩
    | _ => cases FlatOperator.lead?_eq hnext hnext' h
  | whileDo condition body ih =>
    cases o' with
    | whileDo condition' body' =>
      simp only [FlatOperator.fills, Bool.and_eq_true] at hf hf'
      simp only [FlatOperator.words, List.cons_append, List.append_assoc] at h
      obtain ⟨rfl, hbody⟩ := told_between (by decide) hf.1 hf'.1 h
      obtain ⟨rfl, hrest⟩ := ih hf.2 hf'.2 hn hn' hnext hnext' hbody
      exact ⟨rfl, hrest⟩
    | _ => cases FlatOperator.lead?_eq hnext hnext' h
  | forDo start limit body ih =>
    cases o' with
    | forDo start' limit' body' =>
      simp only [FlatOperator.fills, Bool.and_eq_true] at hf hf'
      simp only [FlatOperator.words, List.cons_append, List.append_assoc, List.cons.injEq, true_and] at h
      have hto : ∀ {ws : List Word}, Ends inExpression (⟨.cycle, "to"⟩ :: ws) := ends_cons (by decide)
      obtain ⟨rfl, hlimit⟩ := told_assignment hf.1.1 hf'.1.1 hto hto h
      obtain ⟨rfl, hbody⟩ := told_between (by decide) hf.1.2 hf'.1.2 hlimit
      obtain ⟨rfl, hrest⟩ := ih hf.2 hf'.2 hn hn' hnext hnext' hbody
      exact ⟨rfl, hrest⟩
    | _ => cases FlatOperator.lead?_eq hnext hnext' h
  | ifThen condition branch ih =>
    simp only [FlatOperator.fills, Bool.and_eq_true] at hf
    simp only [FlatOperator.nearest, Bool.and_eq_true, decide_eq_true_eq] at hn
    cases o' with
    | ifThen condition' branch' =>
      simp only [FlatOperator.fills, Bool.and_eq_true] at hf'
      simp only [FlatOperator.nearest, Bool.and_eq_true] at hn'
      simp only [FlatOperator.words, List.cons_append, List.append_assoc] at h
      obtain ⟨rfl, hthen⟩ := told_between (by decide) hf.1 hf'.1 h
      obtain ⟨rfl, hrest⟩ := ih hf.2 hf'.2 hn.2 hn'.2 hnext hnext' hthen
      exact ⟨rfl, hrest⟩
    | ifElse condition' branch' alternative' =>
      simp only [FlatOperator.fills, Bool.and_eq_true] at hf'
      simp only [FlatOperator.nearest, Bool.and_eq_true] at hn'
      simp only [FlatOperator.words, List.cons_append, List.append_assoc] at h
      obtain ⟨rfl, hthen⟩ := told_between (by decide) hf.1 hf'.1.1 h
      -- the branch without an `else` would end before the `else` of the other
      obtain ⟨_, helse, _⟩ := ih hf.2 hf'.1.2 hn.2 hn'.1 hnext (by decide) hthen
      exact absurd helse hn.1
    | _ => cases FlatOperator.lead?_eq hnext hnext' h
  | ifElse condition branch alternative ihb iha =>
    simp only [FlatOperator.fills, Bool.and_eq_true] at hf
    simp only [FlatOperator.nearest, Bool.and_eq_true] at hn
    cases o' with
    | ifThen condition' branch' =>
      simp only [FlatOperator.fills, Bool.and_eq_true] at hf'
      simp only [FlatOperator.nearest, Bool.and_eq_true, decide_eq_true_eq] at hn'
      simp only [FlatOperator.words, List.cons_append, List.append_assoc] at h
      obtain ⟨rfl, hthen⟩ := told_between (by decide) hf.1.1 hf'.1 h
      obtain ⟨_, helse, _⟩ := ihb hf.1.2 hf'.2 hn.1 hn'.2 (by decide) hnext' hthen
      exact absurd helse.symm hn'.1
    | ifElse condition' branch' alternative' =>
      simp only [FlatOperator.fills, Bool.and_eq_true] at hf'
      simp only [FlatOperator.nearest, Bool.and_eq_true] at hn'
      simp only [FlatOperator.words, List.cons_append, List.append_assoc] at h
      obtain ⟨rfl, hthen⟩ := told_between (by decide) hf.1.1 hf'.1.1 h
      obtain ⟨rfl, _, helse⟩ := ihb hf.1.2 hf'.1.2 hn.1 hn'.1 (by decide) (by decide) hthen
      obtain ⟨rfl, hrest⟩ := iha hf.2 hf'.2 hn.2 hn'.2 hnext hnext' helse
      exact ⟨rfl, hrest⟩
    | _ => cases FlatOperator.lead?_eq hnext hnext' h

/-! ## Programs -/

/-- The operators of a program are told from their words. -/
theorem told_body {operators operators' : List FlatOperator} {last last' : FlatOperator}
    (hf : operators.all (·.fills false semicolonWord) ∧ last.fills false endWord)
    (hf' : operators'.all (·.fills false semicolonWord) ∧ last'.fills false endWord)
    (hn : operators.all (·.nearest semicolonWord) ∧ last.nearest endWord)
    (hn' : operators'.all (·.nearest semicolonWord) ∧ last'.nearest endWord)
    (h : FlatProgram.bodyWords operators last = FlatProgram.bodyWords operators' last') :
    operators = operators' ∧ last = last' := by
  have hcons : ∀ (o : FlatOperator) (os : List FlatOperator) (last : FlatOperator),
      FlatProgram.bodyWords (o :: os) last = o.words ++ semicolonWord :: FlatProgram.bodyWords os last := by
    intro o os last
    simp [FlatProgram.bodyWords]
  induction operators generalizing operators' with
  | nil =>
    cases operators' with
    | nil =>
      obtain ⟨rfl, _⟩ := told_operator last hf.2 hf'.2 hn.2 hn'.2 (by decide) (by decide) h
      exact ⟨rfl, rfl⟩
    | cons o' os' =>
      rw [hcons] at h
      rw [List.all_cons, Bool.and_eq_true] at hf' hn'
      obtain ⟨_, hnext, _⟩ := told_operator last hf.2 hf'.1.1 hn.2 hn'.1.1 (by decide) (by decide) h
      cases hnext
  | cons o os ih =>
    rw [hcons] at h
    rw [List.all_cons, Bool.and_eq_true] at hf hn
    cases operators' with
    | nil =>
      obtain ⟨_, hnext, _⟩ := told_operator o hf.1.1 hf'.2 hn.1.1 hn'.2 (by decide) (by decide) h
      cases hnext
    | cons o' os' =>
      rw [hcons] at h
      rw [List.all_cons, Bool.and_eq_true] at hf' hn'
      obtain ⟨rfl, _, hrest⟩ := told_operator o hf.1.1 hf'.1.1 hn.1.1 hn'.1.1 (by decide) (by decide) h
      obtain ⟨rfl, rfl⟩ := ih ⟨hf.1.2, hf.2⟩ ⟨hf'.1.2, hf'.2⟩ ⟨hn.1.2, hn.2⟩ ⟨hn'.1.2, hn'.2⟩ hrest
      exact ⟨rfl, rfl⟩

/-- A program whose operators fill their places and whose `else` belong to the nearest conditionals that wait is told
from its words. -/
theorem FlatProgram.eq_of_words {p q : FlatProgram} (hp : p.fills) (hq : q.fills) (hnp : p.nearest) (hnq : q.nearest)
    (h : p.words = q.words) : p = q := by
  obtain ⟨lists, operators, last⟩ := p
  obtain ⟨lists', operators', last'⟩ := q
  simp only [FlatProgram.fills, Bool.and_eq_true] at hp hq
  simp only [FlatProgram.nearest, Bool.and_eq_true] at hnp hnq
  have hbegin : ∀ {ws : List Word}, Ends (.varWord :: inList) (⟨.beginWord, "begin"⟩ :: ws) := ends_cons (by decide)
  have hwords := (List.cons.inj h).2
  obtain ⟨rfl, hbody⟩ := told_chain links_lists told_list hp.1.1 hq.1.1 hbegin hbegin hwords
  obtain ⟨rfl, rfl⟩ := told_body ⟨hp.1.2, hp.2⟩ ⟨hq.1.2, hq.2⟩ hnp hnq (List.cons.inj hbody).2
  rfl

/-- Where a conditional in a branch has no `else` of its own, the same words have two trees. -/
example :
    let b : Condition := ⟨⟨⟨none, .named "b"⟩, []⟩, []⟩
    let set : FlatOperator := .assign ⟨"b", ":=", ⟨⟨none, .named "b"⟩, []⟩⟩
    (FlatOperator.ifThen b (.ifElse b set set)).words = (FlatOperator.ifElse b (.ifThen b set) set).words ∧
      (FlatOperator.ifThen b (.ifElse b set set)).nearest endWord = true ∧
      (FlatOperator.ifElse b (.ifThen b set) set).nearest endWord = false := by
  decide

end MiniPascal
