import MiniPascal.Proofs.Flat.Accepts

/-!
# The parts of operators in an accepting run

Where the goals of a part of a tree stand on top of a stack that accepts, the lexemes begin with the words of such a
part, and the goals below accept what is left behind it:

* `exists_expression`, `exists_condition`, `exists_assignment`: the parts of statements;
* `exists_list`, `exists_lists`: lists of variables;
* `exists_read`, `exists_write`: what stands between parentheses.
-/

namespace MiniPascal

variable {t : ScopeTable} {x : Lexeme} {rest : List Goal} {input : List Lexeme} {expected : Option DataType}
  {type : DataType} {category : Category} {text : String}

/-! ## Single words -/

theorem canonical_of_is (hx : x.is category text) (hc : category ∈ plainWords) : x.canonical = ⟨category, text⟩ := by
  obtain ⟨rfl, rfl⟩ := Lexeme.is_iff.mp hx
  have hplain : ∀ c ∈ plainWords, c ≠ .typeWord ∧ c.spelling? = none := by decide
  rw [canonical_eq rfl (hplain _ hc).1, (hplain _ hc).2, Option.getD_none]

/-- The word that is awaited is read. -/
theorem exists_word (h : Accepts (.word category text :: rest) input) :
    ∃ left, Reads input [⟨category, text⟩] left ∧ Accepts rest left := by
  obtain ⟨hplain, _⟩ : category ∈ plainWords ∧ text ≠ "else" := h.plain _ List.mem_cons_self
  obtain ⟨t, here, x, left, t', new, ht, rfl, htakes, hnew⟩ := h.take rfl
  cases htakes with
  | word hx => exact ⟨left, .cons (canonical_of_is hx hplain) (.refl left), hnew⟩

/-! ## Expressions and conditions -/

/-- What fits as an operand is the name of a variable or a literal. -/
theorem exists_operand (ht : t.Unbracketed) (hx : x.Suits t expected) :
    ∃ o : Operand, o.proper ∧ x.canonical = o.word := by
  have hword := canonical_eq hx.unclassified (by decide)
  rcases hx.known with hknown | hliteral
  · exact ⟨.named x.text, ht.isIdentifier_of_find? hknown, hword⟩
  · exact ⟨.literal x.text, hliteral, hword⟩

theorem exists_term (h : Accepts (.term expected :: rest) input) :
    ∃ (tm : Term) (left : List Lexeme), tm.proper ∧ Reads input tm.words left ∧ Accepts rest left := by
  obtain ⟨t, here, x, left, t', new, ht, rfl, htakes, hnew⟩ := h.take rfl
  cases htakes with
  | term ho =>
    obtain ⟨o, hproper, hword⟩ := exists_operand ht ho
    exact ⟨⟨none, o⟩, left, hproper, .cons hword (.refl left), hnew⟩
  | sign hx =>
    obtain ⟨sign, hsign⟩ : ∃ sign : Sign, x.canonical = sign.word := by
      rcases hx with hx | hx
      · exact ⟨.unary x.text, canonical_eq hx (by decide)⟩
      · exact ⟨.addition x.text, canonical_eq hx (by decide)⟩
    obtain ⟨t, here, y, left, t', new, ht, rfl, htakes, hnew⟩ := Accepts.take hnew rfl
    cases htakes with
    | operand ho =>
      obtain ⟨o, hproper, hword⟩ := exists_operand ht ho
      exact ⟨⟨some sign, o⟩, left, hproper, .cons hsign (.cons hword (.refl left)), hnew⟩

theorem exists_moreTerms (h : Accepts (.moreTerms expected :: rest) input) :
    ∃ (more : List (Joint × Term)) (left : List Lexeme), more.all (·.2.proper) ∧
      Reads input (more.flatMap fun m => m.1.word :: m.2.words) left ∧ Accepts rest left := by
  refine h.exists_pieces (fun m : Joint × Term => m.1.word :: m.2.words) _ nofun ?_
  intro t here x left t' new htakes hnew
  cases htakes with
  | moreTerms hx =>
    obtain ⟨joint, hjoint⟩ : ∃ joint : Joint, x.canonical = joint.word := by
      rcases hx with hx | hx
      · exact ⟨.addition x.text, canonical_eq hx (by decide)⟩
      · exact ⟨.multiplication x.text, canonical_eq hx (by decide)⟩
    obtain ⟨tm, left', hproper, hreads, hmore⟩ := exists_term hnew
    exact ⟨(joint, tm), left', hproper, .cons hjoint hreads, hmore⟩

/-- An expression is read. -/
theorem exists_expression (h : Accepts (expression expected ++ rest) input) :
    ∃ (e : Expression) (left : List Lexeme), e.proper ∧ Reads input e.words left ∧ Accepts rest left := by
  obtain ⟨first, left, hfirst, hreads, h'⟩ := exists_term h
  obtain ⟨more, left', hall, hreads', hrest⟩ := exists_moreTerms h'
  exact ⟨⟨first, more⟩, left', by simp [Expression.proper, hfirst, hall], hreads.append hreads', hrest⟩

theorem exists_moreExpressions (h : Accepts (.moreExpressions :: rest) input) :
    ∃ (more : List (Connective × Expression)) (left : List Lexeme), more.all (·.2.proper) ∧
      Reads input (more.flatMap fun m => m.1.word :: m.2.words) left ∧ Accepts rest left := by
  refine h.exists_pieces (fun m : Connective × Expression => m.1.word :: m.2.words) _ nofun ?_
  intro t here x left t' new htakes hnew
  cases htakes with
  | moreExpressions hx =>
    obtain ⟨connective, hconnective⟩ : ∃ connective : Connective, x.canonical = connective.word := by
      rcases hx with hx | hx | hx
      · exact ⟨.relation x.text, canonical_eq hx (by decide)⟩
      · exact ⟨.logicalOr x.text, canonical_eq hx (by decide)⟩
      · exact ⟨.logicalAnd x.text, canonical_eq hx (by decide)⟩
    have hnew : Accepts (expression none ++ .moreExpressions :: rest) left := hnew
    obtain ⟨e, left', hproper, hreads, hmore⟩ := exists_expression hnew
    exact ⟨(connective, e), left', hproper, .cons hconnective hreads, hmore⟩

/-- A condition is read. -/
theorem exists_condition (h : Accepts (comparison ++ rest) input) :
    ∃ (c : Condition) (left : List Lexeme), c.proper ∧ Reads input c.words left ∧ Accepts rest left := by
  have h : Accepts (expression none ++ .moreExpressions :: rest) input := h
  obtain ⟨first, left, hfirst, hreads, h'⟩ := exists_expression h
  obtain ⟨more, left', hall, hreads', hrest⟩ := exists_moreExpressions h'
  exact ⟨⟨first, more⟩, left', by simp [Condition.proper, hfirst, hall], hreads.append hreads', hrest⟩

/-- Behind the target of an assignment the rest of it is read. -/
theorem exists_assignment (ht : t.Unbracketed) (hx : x.category = .unclassified)
    (hknown : t.find? x.text = some type) (h : Accepts (.value type :: rest) input) :
    ∃ (a : Assignment) (left : List Lexeme), a.proper ∧ Reads (x :: input) a.words left ∧ Accepts rest left := by
  have hname : isIdentifier x.text := ht.isIdentifier_of_find? (by simp [hknown])
  obtain ⟨t, here, y, left, t', new, ht, rfl, htakes, hnew⟩ := h.take rfl
  cases htakes with
  | value hy =>
    obtain ⟨e, left', hproper, hreads, hrest⟩ := exists_expression hnew
    exact ⟨⟨x.text, y.text, e⟩, left', by simp [Assignment.proper, hname, hproper],
      .cons (canonical_eq hx (by decide)) (.cons (canonical_eq hy (by decide)) hreads), hrest⟩

/-! ## Lists of variables -/

/-- A name that is declared is read. -/
theorem exists_name (h : Accepts (.variableName type :: rest) input) :
    ∃ (name : String) (left : List Lexeme), isIdentifier name ∧ Reads input [nameWord name] left ∧
      Accepts rest left := by
  obtain ⟨t, here, x, left, t', new, ht, rfl, htakes, hnew⟩ := h.take rfl
  cases htakes with
  | variableName hx hd =>
    have hname : isIdentifier x.text := by
      cases alters_of_declareName hd with
      | keep hg _ => exact absurd rfl (hg type)
      | declare _ hn _ _ => exact hn
      | opening hx' | closing hx' _ => simp [hx] at hx'
    exact ⟨x.text, left, hname, .cons (canonical_eq hx (by decide)) (.refl left), hnew⟩

/-- Names behind commas are read, and perhaps a semicolon. -/
theorem exists_moreNames (h : Accepts (.moreVariables type :: rest) input) :
    ∃ (more : List String) (left : List Lexeme), more.all isIdentifier ∧
      Reads input (more.flatMap fun name => [commaWord, nameWord name]) left ∧
      ∃ (semicolon : Bool) (left' : List Lexeme), Reads left (if semicolon then [semicolonWord] else []) left' ∧
        Accepts rest left' := by
  refine exists_chain (P := Accepts (.moreVariables type :: rest)) (fun name => [commaWord, nameWord name]) _ nofun ?_ h
  intro input h
  rcases h.take_or_rest with ⟨t, here, x, left, t', new, ht, rfl, htakes, hnew⟩ | hrest
  · cases htakes with
    | comma hx =>
      obtain ⟨name, left', hname, hreads, hmore⟩ := exists_name hnew
      exact .inl ⟨name, left', hname, .cons (canonical_eq hx (by decide)) hreads, hmore⟩
    | semicolon hx => exact .inr ⟨true, left, .cons (canonical_eq hx (by decide)) (.refl left), hnew⟩
  · exact .inr ⟨false, input, .refl input, hrest⟩

/-- Behind the word `var` the rest of a list of variables is read. -/
theorem exists_list (hx : x.category = .varWord) (h : Accepts (.typeName :: rest) input) :
    ∃ (l : VariableList) (left : List Lexeme), l.proper ∧ Reads (x :: input) l.words left ∧ Accepts rest left := by
  obtain ⟨t, here, y, left, t', new, ht, rfl, htakes, hnew⟩ := h.take rfl
  cases htakes with
  | @typeName type htype =>
    have hword : y.canonical = ⟨.typeWord, type.name⟩ := by
      simp [Lexeme.canonical, Lexeme.namedType?_eq_some_iff.mp htype]
    obtain ⟨first, left₁, hfirst, hname, h₁⟩ := exists_name hnew
    obtain ⟨more, left₂, hall, hnames, semicolon, left₃, hend, hrest⟩ := exists_moreNames h₁
    refine ⟨⟨type, first, more, semicolon⟩, left₃, by simp [VariableList.proper, hfirst, hall], ?_, hrest⟩
    exact .cons (canonical_eq hx (by decide)) (.cons hword (hname.append (hnames.append hend)))

/-- Lists of variables are read. -/
theorem exists_lists (h : Accepts (.variableLists :: rest) input) :
    ∃ (lists : List VariableList) (left : List Lexeme), lists.all (·.proper) ∧
      Reads input (lists.flatMap (·.words)) left ∧ Accepts rest left := by
  refine h.exists_pieces VariableList.words _ nofun ?_
  intro t here x left t' new htakes hnew
  cases htakes with
  | variableLists hx => exact exists_list hx hnew

/-! ## Variables to be read and conditions to be written -/

theorem exists_readTarget (h : Accepts (.readTarget :: rest) input) :
    ∃ (name : String) (left : List Lexeme), isIdentifier name ∧ Reads input [nameWord name] left ∧
      Accepts rest left := by
  obtain ⟨t, here, x, left, t', new, ht, rfl, htakes, hnew⟩ := h.take rfl
  cases htakes with
  | readTarget hx hknown =>
    exact ⟨x.text, left, ht.isIdentifier_of_find? hknown, .cons (canonical_eq hx (by decide)) (.refl left), hnew⟩

theorem exists_moreReadTargets (h : Accepts (.moreReadTargets :: rest) input) :
    ∃ (more : List String) (left : List Lexeme), more.all isIdentifier ∧
      Reads input (more.flatMap fun name => [commaWord, nameWord name]) left ∧ Accepts rest left := by
  refine h.exists_pieces (fun name => [commaWord, nameWord name]) _ nofun ?_
  intro t here x left t' new htakes hnew
  cases htakes with
  | moreReadTargets hx =>
    obtain ⟨name, left', hname, hreads, hmore⟩ := exists_readTarget hnew
    exact ⟨name, left', hname, .cons (canonical_eq hx (by decide)) hreads, hmore⟩

/-- Variables between parentheses are read. -/
theorem exists_read (h : Accepts (readGoals ++ rest) input) :
    ∃ (first : String) (more : List String) (left : List Lexeme), (first :: more).all isIdentifier ∧
      Reads input (⟨.parenthesis, "("⟩ :: nameWord first ::
        (more.flatMap fun name => [commaWord, nameWord name]) ++ [⟨.parenthesis, ")"⟩]) left ∧
      Accepts rest left := by
  obtain ⟨left₁, hopen, h₁⟩ := exists_word h
  obtain ⟨first, left₂, hfirst, hname, h₂⟩ := exists_readTarget h₁
  obtain ⟨more, left₃, hall, hnames, h₃⟩ := exists_moreReadTargets h₂
  obtain ⟨left₄, hclose, h₄⟩ := exists_word h₃
  exact ⟨first, more, left₄, by simp [hfirst, hall], hopen.append (hname.append (hnames.append hclose)), h₄⟩

theorem exists_moreWritten (h : Accepts (.moreWritten :: rest) input) :
    ∃ (more : List Condition) (left : List Lexeme), more.all (·.proper) ∧
      Reads input (more.flatMap fun c => commaWord :: c.words) left ∧ Accepts rest left := by
  refine h.exists_pieces (fun c : Condition => commaWord :: c.words) _ nofun ?_
  intro t here x left t' new htakes hnew
  cases htakes with
  | moreWritten hx =>
    have hnew : Accepts (comparison ++ .moreWritten :: rest) left := hnew
    obtain ⟨c, left', hproper, hreads, hmore⟩ := exists_condition hnew
    exact ⟨c, left', hproper, .cons (canonical_eq hx (by decide)) hreads, hmore⟩

/-- Conditions between parentheses are read. -/
theorem exists_write (h : Accepts (writeGoals ++ rest) input) :
    ∃ (first : Condition) (more : List Condition) (left : List Lexeme), (first :: more).all (·.proper) ∧
      Reads input (⟨.parenthesis, "("⟩ :: first.words ++ (more.flatMap fun c => commaWord :: c.words) ++
        [⟨.parenthesis, ")"⟩]) left ∧
      Accepts rest left := by
  obtain ⟨left₁, hopen, h₁⟩ := exists_word h
  have h₁ : Accepts (comparison ++ .moreWritten :: .word .parenthesis ")" :: rest) left₁ := h₁
  obtain ⟨first, left₂, hfirst, hwords, h₂⟩ := exists_condition h₁
  obtain ⟨more, left₃, hall, hmore, h₃⟩ := exists_moreWritten h₂
  obtain ⟨left₄, hclose, h₄⟩ := exists_word h₃
  exact ⟨first, more, left₄, by simp [hfirst, hall], (hopen.append (hwords.append hmore)).append hclose, h₄⟩

end MiniPascal
