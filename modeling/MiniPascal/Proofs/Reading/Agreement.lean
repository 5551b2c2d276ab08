import MiniPascal.Dictionary.Builtin
import MiniPascal.Proofs.Analysis.Refuses
import MiniPascal.Proofs.Reading.Blocks
import MiniPascal.Proofs.Reading.Phases

/-!
# The analysis reads names as their words tell

Wherever a run gets, its frames hold the declarations of the open blocks, its goals await what the phase tells, and every
name before agrees with what it stands for (`Follows`, `follows_of_reaches`).

* `agrees_of_reports_nothing`: where nothing is reported all names agree.
* `undeclared_of_unknown`: a name that is reported as unknown is declared in no block that is open there.
* `alreadyDeclared_iff`: a name is reported as declared already exactly if its block declares it before.
-/

namespace MiniPascal

variable {program : List Lexeme} {i : Nat} {x : Lexeme} {g : Goal} {new rest : List Goal} {t t' : ScopeTable} {here : Place}
  {frames : List Frame} {blocks : List (List Declaration)} {role : Role}

/-! ## One name -/

/-- A name that the scope table knows means an earlier declaration. -/
theorem typedAt_of_find? (ht : t.Shows frames) (hm : Mirrors frames (blocksAt program i))
    (hx : wordAt? program i = some x) {type : DataType} (h : t.find? x.text = some type) : TypedAt program i type := by
  rw [ht.find?, hm.typeIn?] at h
  obtain ⟨d, hd, rfl⟩ := Option.map_eq_some_iff.mp h
  exact ⟨x, d, hx, finds_of_findIn? hd, rfl⟩

theorem Phase.role?_of_settled {p : Phase} (hp : p.settled) : p.role? = some .target := by
  cases p <;> first | rfl | cases hp

theorem Phase.eq_nameDue_of_role? {p : Phase} {type : DataType} (h : p.role? = some (.declared type)) :
    p = .nameDue type := by
  cases p <;> simp_all [Phase.role?]

/-- An operand that suits agrees with what it stands for. -/
theorem agrees_of_suits {target? : Option Nat} {expected : Option DataType} (ht : t.Shows frames)
    (he : Expects program target? expected) (ho : x.Suits t expected)
    (htyped : ∀ type, t.find? x.text = some type → TypedAt program i type) :
    Agrees program i x (.operand target?) := by
  have hknown := ho.known
  have hfits := ho.fits
  have hfree (hl : (DataType.ofLiteral? x.text).isSome) : t.find? x.text = none := by
    rw [ht.find?, ht.typeIn?_literal hl]
  cases he with
  | any =>
    rcases hknown with hfound | hl
    · obtain ⟨type, htype⟩ := Option.isSome_iff_exists.mp hfound
      exact .inr ⟨type, htyped type htype⟩
    · exact .inl hl
  | @typed target type h =>
    refine ⟨type, h, ?_⟩
    by_cases hl : (DataType.ofLiteral? x.text).isSome
    · rw [if_pos hl]
      simpa [hfree hl, fits] using hfits
    · rw [if_neg hl]
      obtain ⟨actual, hactual⟩ := Option.isSome_iff_exists.mp (hknown.resolve_right hl)
      rw [hactual, fits, decide_eq_true_eq] at hfits
      exact htyped type (hfits ▸ hactual)

/-- A name that a goal takes agrees with what it stands for. -/
theorem agrees_of_takes (ht : t.Shows frames) (hx : wordAt? program i = some x)
    (hfits : Fits program (g :: rest) (phaseAt program i)) (hg : g.Plain) (h : g.Takes t here x t' new)
    (htyped : ∀ type, t.find? x.text = some type → TypedAt program i type) (hrole : roleAt? program i = some role) :
    Agrees program i x role := by
  have hname : x.category = .unclassified ∧ (phaseAt program i).role? = some role := by
    simpa [roleAt?, hx] using hrole
  obtain ⟨hc, hphase⟩ := hname
  have htarget (hp : (phaseAt program i).settled) {type : DataType} (htype : t.find? x.text = some type) :
      Agrees program i x role := by
    rw [Phase.role?_of_settled hp] at hphase
    cases hphase
    exact ⟨type, htyped type htype⟩
  have hbegins {context : Context} (hp : (phaseAt program i).settled) (hb : Begins t x context t' new) :
      Agrees program i x role := by
    cases hb with
    | assign _ htype => exact htarget hp htype
    | var hw | opening hw | closing hw _ | whileDo hw | forDo hw _ | read hw | write hw | conditional hw _ =>
      rw [hw] at hc
      cases hc
  cases h with
  | operator hb => exact hbegins hfits.1 hb
  | moreStatements hb => exact hbegins hfits.1 hb
  | target _ htype => exact htarget hfits.1 htype
  | variableName _ _ =>
    rw [hfits.1] at hphase
    cases hphase
    trivial
  | readTarget _ hknown =>
    rw [hfits.1] at hphase
    cases hphase
    obtain ⟨type, htype⟩ := Option.isSome_iff_exists.mp hknown
    exact ⟨type, htyped type htype⟩
  | term ho | operand ho =>
    obtain ⟨target?, hp, he, _⟩ := hfits
    rw [hp] at hphase
    cases hphase
    exact agrees_of_suits ht he ho htyped
  | word h =>
    rw [(Lexeme.is_iff.mp h).1] at hc
    rw [hc] at hg
    exact absurd hg.1 (by decide)
  | elseBranch h =>
    rw [(Lexeme.is_iff.mp h).1] at hc
    cases hc
  | typeName htype =>
    rw [Lexeme.namedType?_eq_some_iff] at htype
    rw [htype.1] at hc
    cases hc
  | sign h | moreTerms h | moreExpressions h => simp [hc] at h
  | programWord h | variableLists h | comma h | semicolon h | beginWord h | moreOperators h | endWord h | value h
  | moreReadTargets h | moreWritten h =>
    rw [h] at hc
    cases hc

/-! ## Runs -/

/-- What is known wherever a run gets. -/
structure Follows (program : List Lexeme) (i : Nat) (goals : List Goal) (frames : List Frame) : Prop where
  mirrors : Mirrors frames (blocksAt program i)
  fits : Fits program goals (phaseAt program i)
  agrees : ∀ k < i, ∀ x role, wordAt? program k = some x → roleAt? program k = some role → Agrees program k x role

/-- A run follows the reading of its words. -/
theorem follows_of_reaches {s : State} (hi : i ≤ program.length) (h : Reaches program i s) :
    ∃ frames, s.scope.Shows frames ∧ Follows program i s.goals frames := by
  apply invariant_of_turns _ _ _ hi h
  · exact ⟨rfl, ⟨rfl, fun q hq => hq⟩, nofun⟩
  · intro i goals frames hx hinv
    constructor
    · rw [blocksAt, hx]
      exact hinv.mirrors
    · rw [phaseAt, hx]
      exact hinv.fits
    · refine Nat.forall_lt_succ_right.mpr ⟨hinv.agrees, ?_⟩
      intro y role hy
      rw [hx] at hy
      cases hy
  · intro i x here passed rest new g t t' frames frames' hx hinv ht hpass hg htakes hturns
    have hfits := fits_of_passAll hinv.fits hpass
    have htyped : ∀ type, t.find? x.text = some type → TypedAt program i type :=
      fun type htype => typedAt_of_find? ht hinv.mirrors hx htype
    have hdeclares (type : DataType) : phaseAt program i = .nameDue type ↔ g = .variableName type := by
      constructor
      · intro hp
        rw [hp] at hfits
        exact variableName_of_fits hfits
      · rintro rfl
        exact hfits.1
    constructor
    · rw [blocksAt, hx]
      exact mirrors_of_turns hinv.mirrors hturns hdeclares
    · rw [phaseAt, hx]
      exact fits_of_takes hfits hg htakes htyped
    · refine Nat.forall_lt_succ_right.mpr ⟨hinv.agrees, ?_⟩
      intro y role hy hrole
      obtain rfl := Option.some.inj (hx.symm.trans hy)
      exact agrees_of_takes ht hx hfits hg htakes htyped hrole

/-! ## Reports -/

theorem agrees_of_reports_nothing (h : (analyze program).diagnostic? = none) (hx : wordAt? program i = some x)
    (hrole : roleAt? program i = some role) : Agrees program i x role := by
  have hbreach : breach? program = none := by simpa [diagnostic?_analyze] using h
  obtain ⟨s, hs, _⟩ := breach?_eq_none hbreach
  obtain ⟨frames, _, hinv⟩ := follows_of_reaches (Nat.le_refl _) hs
  have hi := (List.getElem?_eq_some_iff.mp (wordAt?_eq_some.mp hx).1).1
  exact hinv.agrees i hi x role hx hrole

/-- A name that is reported as unknown is declared in no block that is open there. -/
theorem undeclared_of_unknown {halt : Halt} (h : breach? program = some halt) (hk : halt.kind ∈ unknownKinds)
    (hc : (lexemeAt program halt.index).category = .unclassified) :
    ∀ block ∈ blocksAt program halt.index, ∀ d ∈ block, d.name ≠ (lexemeAt program halt.index).text := by
  have hdisjoint : ∀ kind ∈ unknownKinds, kind ∉ strayKinds := by decide
  rcases refused_of_breach h (hdisjoint _ hk) with ⟨x, s, loose?, passed, g, rest, hx, hs, hgoals, hpass, hg⟩ | ⟨hi, s, hs⟩
  · have hget := (wordAt?_eq_some.mp hx).1
    have hi := (List.getElem?_eq_some_iff.mp hget).1
    rw [lexemeAt_of_getElem? hget] at hc ⊢
    obtain ⟨frames, ht, hinv⟩ := follows_of_reaches (by omega) hs
    have hkind : halt.kind ≠ .missingCommentOpening := by
      intro he
      simp [he, unknownKinds] at hk
    have hnone := (refusal_of_onLexeme hg hkind).unknown hk hc
    rw [ht.find?, hinv.mirrors.typeIn?, Option.map_eq_none_iff] at hnone
    exact findIn?_eq_none.mp hnone
  · obtain ⟨frames, ht, hinv⟩ := follows_of_reaches (Nat.le_refl _) hs
    rw [hi]
    intro block hb d hd
    have hempty : (lexemeAt program program.length).text = "" := by
      rw [lexemeAt, List.getElem?_eq_none (Nat.le_refl _), Option.getD_none]
      cases program.getLast? <;> rfl
    obtain ⟨f, hf, hmem⟩ := hinv.mirrors.mem hb hd
    have hid := ht.identifiers hf hmem
    rw [hempty]
    intro he
    rw [he] at hid
    exact absurd hid (show ¬ isIdentifier "" by decide)

/-- A name is refused as declared already exactly if the innermost block declares it. -/
theorem declareName_refuse_iff (type : DataType) (ht : t.Shows frames) (hm : Mirrors frames blocks)
    (hn : isIdentifier x.text) (hx : x.category = .unclassified) :
    declareName t here x type = here.refuse .alreadyDeclared ↔ ∃ d ∈ blocks.headD [], d.name = x.text := by
  cases frames with
  | nil =>
    obtain rfl : blocks = [] := List.map_eq_nil_iff.mp hm.symm
    have hcurrent : t.current? = none := by
      cases hb : t.current? with
      | none => rfl
      | some b =>
        obtain ⟨f, others, he⟩ := ht.exists_cons hb
        cases he
    simp [declareName, hn, hx, hcurrent]
  | cons f others =>
    obtain ⟨block, more, rfl, hblock, _⟩ := hm.head
    have hlookup : (f.declared.lookup x.text).isSome ↔ ∃ d ∈ block, d.name = x.text := by
      rw [hblock, lookup_entries, Option.isSome_map, List.find?_isSome]
      simp
    rw [List.headD_cons, ← hlookup]
    have hd := ht.declareName hn hx type
    split at hd
    case isTrue hsome => exact ⟨fun _ => hsome, fun _ => hd here⟩
    case isFalse hnone =>
      obtain ⟨u, _, hu⟩ := hd
      rw [hu here]
      refine ⟨fun he => ?_, fun hsome => absurd hsome hnone⟩
      cases he

/-- Where a run reaches a name to be declared, it is reported as declared already exactly if its block declares it
before. -/
theorem alreadyDeclared_iff {s : State} {type : DataType} (hs : Reaches program i s) (hx : wordAt? program i = some x)
    (hrole : roleAt? program i = some (.declared type)) (hn : isIdentifier x.text) :
    breach? program = some ⟨.alreadyDeclared, i⟩ ↔ ∃ d ∈ (blocksAt program i).headD [], d.name = x.text := by
  obtain ⟨hget, houtside, hcomment⟩ := wordAt?_eq_some.mp hx
  have hi := (List.getElem?_eq_some_iff.mp hget).1
  obtain ⟨frames, ht, hinv⟩ := follows_of_reaches (by omega) hs
  have hname : x.category = .unclassified ∧ (phaseAt program i).role? = some (.declared type) := by
    simpa [roleAt?, hx] using hrole
  obtain ⟨rest, hgoals⟩ : ∃ rest, s.goals = .variableName type :: rest := by
    have hfits := hinv.fits
    rw [Phase.eq_nameDue_of_role? hname.2] at hfits
    cases hg : s.goals with
    | nil =>
      rw [hg] at hfits
      cases hfits
    | cons g rest =>
      rw [hg] at hfits
      exact ⟨rest, by rw [variableName_of_fits hfits]⟩
  constructor
  · intro hbreach
    rcases refused_of_breach hbreach (show DiagnosticKind.alreadyDeclared ∉ strayKinds by decide) with
      ⟨y, s', loose?, passed, g, rest', hy, hs', hgoals', hpass, hg⟩ | ⟨hlen, _⟩
    · obtain rfl := Option.some.inj (hx.symm.trans hy)
      obtain rfl := Except.ok.inj (hs.symm.trans hs')
      rw [hgoals] at hgoals'
      cases passed with
      | nil =>
        obtain ⟨rfl, rfl⟩ := List.cons.inj hgoals'
        exact (declareName_refuse_iff type ht hinv.mirrors hn hname.1).mp hg
      | cons g' passed =>
        obtain ⟨rfl, _⟩ := List.cons.inj hgoals'
        exact absurd (hpass _ List.mem_cons_self) declareName_ne_pass
    · simp only at hlen
      omega
  · intro hd
    refine breach?_of_step hs hget ?_
    have hinside := isInside_of_reaches (by omega) hs
    have hread := read_of_reaches (by omega) hs
    rw [houtside] at hinside
    cases hm : s.margin with
    | inside opening mark =>
      rw [hm] at hinside
      cases hinside
    | outside loose? =>
      have hrefuse : declareName s.scope ⟨i, loose?⟩ x type = .refuse ⟨.alreadyDeclared, i⟩ :=
        (declareName_refuse_iff type ht hinv.mirrors hn hname.1).mpr hd
      simp [State.step_of_word hm hcomment, hread, hgoals, hrefuse]

/-- The analysis reports of names what their words tell: if nothing is reported all names agree with what they stand
for, a name is reported as unknown only where no open block declares it, and as declared already exactly where its block
declares it before. -/
theorem reports_of_names (program : List Lexeme) :
    ((analyze program).diagnostic? = none → ∀ i x role, wordAt? program i = some x →
      roleAt? program i = some role → Agrees program i x role) ∧
    (∀ halt, breach? program = some halt → halt.kind ∈ [.undefinedVariable, .undefinedAssignmentTarget] →
      (lexemeAt program halt.index).category = .unclassified →
      ∀ block ∈ blocksAt program halt.index, ∀ d ∈ block, d.name ≠ (lexemeAt program halt.index).text) ∧
    ∀ i x type, (∃ s, Reaches program i s) → wordAt? program i = some x →
      roleAt? program i = some (.declared type) → isIdentifier x.text →
      (breach? program = some ⟨.alreadyDeclared, i⟩ ↔ ∃ d ∈ (blocksAt program i).headD [], d.name = x.text) := by
  refine ⟨?_, ?_, ?_⟩
  · intro h i x role hx hrole
    exact agrees_of_reports_nothing h hx hrole
  · intro halt h hk hc
    exact undeclared_of_unknown h hk hc
  · rintro i x type ⟨s, hs⟩ hx hrole hn
    exact alreadyDeclared_iff hs hx hrole hn

/-- A block that declares a name of the program anew. -/
def shadowing : List Lexeme :=
  tokenize .builtin "program var int x begin [ var bool x x := true ] ; x := 1 end"

/-- A program that declares a name twice. -/
def doubled : List Lexeme :=
  tokenize .builtin "program var int x , x"

/-- A program that does not declare a name. -/
def undeclared : List Lexeme :=
  tokenize .builtin "program begin x := 1"

theorem reports_of_shadowing_doubled_undeclared :
    ((analyze shadowing).diagnostic? = none ∧
      Agrees shadowing 11 (lexemeAt shadowing 11) (.operand (some 9))) ∧
    (breach? undeclared = some ⟨.undefinedAssignmentTarget, 2⟩ ∧
      ∀ block ∈ blocksAt undeclared 2, ∀ d ∈ block, d.name ≠ (lexemeAt undeclared 2).text) ∧
    ((∃ s, Reaches doubled 5 s) ∧ (breach? doubled = some ⟨.alreadyDeclared, 5⟩ ↔
      ∃ d ∈ (blocksAt doubled 5).headD [], d.name = (lexemeAt doubled 5).text)) := by
  have hshadowing : (analyze shadowing).diagnostic? = none ∧ wordAt? shadowing 11 = some (lexemeAt shadowing 11) ∧
      roleAt? shadowing 11 = some (.operand (some 9)) := by
    decide +kernel
  have hundeclared : breach? undeclared = some ⟨.undefinedAssignmentTarget, 2⟩ ∧
      (lexemeAt undeclared 2).category = .unclassified := by
    decide +kernel
  have hdoubled : (State.initial.after (doubled.take 5)).isOk ∧ wordAt? doubled 5 = some (lexemeAt doubled 5) ∧
      roleAt? doubled 5 = some (.declared .int) ∧ isIdentifier (lexemeAt doubled 5).text := by
    decide +kernel
  have hreaches : ∃ s, Reaches doubled 5 s := by
    unfold Reaches
    cases hs : State.initial.after (doubled.take 5) with
    | ok s => exact ⟨s, rfl⟩
    | error halt =>
      rw [hs] at hdoubled
      cases hdoubled.1
  refine ⟨⟨hshadowing.1, ?_⟩, ⟨hundeclared.1, ?_⟩, hreaches, ?_⟩
  · exact (reports_of_names shadowing).1 hshadowing.1 11 _ _ hshadowing.2.1 hshadowing.2.2
  · exact (reports_of_names undeclared).2.1 _ hundeclared.1 (by simp) hundeclared.2
  · exact (reports_of_names doubled).2.2 5 _ _ hreaches hdoubled.2.1 hdoubled.2.2.1 hdoubled.2.2.2

end MiniPascal
