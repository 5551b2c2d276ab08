import MiniPascal.Proofs.Analysis.Takes
import MiniPascal.Proofs.Analysis.Words
import MiniPascal.Proofs.Scope.Shows

/-!
# The scope table and its frames along a run

A goal that takes a lexeme opens a block, closes one, declares a variable in the current one or leaves the scope table as
it is, and the category of the lexeme tells which (`Alters`, `alters_of_takes`); its frames turn accordingly (`Turns`,
`turns_of_alters`). So a property of goals and scope table that every such change keeps holds wherever a run gets
(`invariant_of_alters`); there the scope table shows frames, and a property of goals and frames holds that every such
turn keeps (`invariant_of_turns`).
-/

namespace MiniPascal

variable {t t' : ScopeTable} {frames : List Frame} {here : Place} {x : Lexeme} {g : Goal} {new : List Goal}

/-! ## One lexeme and the scope table -/

/-- The words that open and close blocks. -/
@[simp]
def blockWords : List Category :=
  [.programWord, .beginWord, .compoundOpen, .compoundClose, .endWord]

/-- The scope table behind a lexeme that a goal takes. -/
inductive Alters (t : ScopeTable) (x : Lexeme) : Goal → ScopeTable → Prop
  | keep {g : Goal} (hg : ∀ type, g ≠ .variableName type) (hx : x.category ∉ blockWords) : Alters t x g t
  | program (hx : x.category = .programWord) : Alters t x .programWord (t.openBlock .program ScopeTable.global)
  | body (hx : x.category = .beginWord) : Alters t x .beginWord (t.openInner .body)
  | opening {g : Goal} (hx : x.category = .compoundOpen) : Alters t x g (t.openInner (.compound 0))
  | closing {g : Goal} (hx : x.category = .compoundClose) (hin : t.inCompound = true) : Alters t x g t.closeBlock
  | ending (hx : x.category = .endWord) : Alters t x .endWord t.closeBlock
  | declare {type : DataType} {b : Nat} {t' : ScopeTable} (hx : x.category = .unclassified)
      (hn : isIdentifier x.text) (hc : t.current? = some b) (hd : t.declare b x.text type = .ok t') :
      Alters t x (.variableName type) t'

/-- A name that is taken is an identifier that is declared in the current block. -/
theorem alters_of_declareName {type : DataType} (h : declareName t here x type = .take t' new) :
    Alters t x (.variableName type) t' := by
  unfold declareName at h
  split at h
  · cases h
  rename_i hn
  split at h
  · cases h
  rename_i hx
  split at h
  · cases h
  rename_i hc
  split at h <;> cases h
  rename_i hd
  exact .declare (Decidable.not_not.mp hx) (by simpa using hn) hc hd

/-- The categories of the single words that are awaited. -/
def plainWords : List Category :=
  [.doWord, .cycle, .conditional, .parenthesis]

/-- Single words are awaited inside statements only, and an `else` never as a single word. -/
def Goal.Plain : Goal → Prop
  | .word category text => category ∈ plainWords ∧ text ≠ "else"
  | _ => True

theorem plain_of_begins {context : Context} (h : Begins t x context t' new) : ∀ g ∈ new, g.Plain := by
  cases h <;> simp [Goal.Plain, plainWords]

theorem plain_of_takes (h : g.Takes t here x t' new) : ∀ g ∈ new, g.Plain := by
  cases h with
  | operator hb => exact plain_of_begins hb
  | moreStatements hb => exact plain_of_begins hb
  | _ => simp [Goal.Plain]

theorem alters_of_begins {context : Context} (hg : ∀ type, g ≠ .variableName type) (h : Begins t x context t' new) :
    Alters t x g t' := by
  cases h with
  | opening hx => exact .opening hx
  | closing hx hin => exact .closing hx hin
  | var hx | whileDo hx | forDo hx _ | read hx | write hx | assign hx _ | conditional hx _ =>
    exact .keep hg (by simp [hx])

/-- The scope table behind a lexeme that a goal takes is told by its category. -/
theorem alters_of_takes (hg : g.Plain) (h : g.Takes t here x t' new) : Alters t x g t' := by
  cases h with
  | programWord hx => exact .program hx
  | beginWord hx => exact .body hx
  | endWord hx => exact .ending hx
  | variableName _ hd => exact alters_of_declareName hd
  | operator hb => exact alters_of_begins nofun hb
  | moreStatements hb => exact alters_of_begins nofun hb
  | word hx =>
    obtain ⟨rfl, _⟩ := Lexeme.is_iff.mp hx
    have hdisjoint : ∀ c ∈ plainWords, c ∉ blockWords := by decide
    exact .keep nofun (hdisjoint _ hg.1)
  | typeName htype =>
    rw [Lexeme.namedType?_eq_some_iff] at htype
    exact .keep nofun (by simp [htype.1])
  | elseBranch hx =>
    rw [Lexeme.is_iff] at hx
    exact .keep nofun (by simp [hx.1])
  | term ho | operand ho => exact .keep nofun (by simp [ho.unclassified])
  | sign hx | moreTerms hx => exact .keep nofun (by rcases hx with hx | hx <;> simp [hx])
  | moreExpressions hx => exact .keep nofun (by rcases hx with hx | hx | hx <;> simp [hx])
  | variableLists hx | comma hx | semicolon hx | moreOperators hx | target hx _ | value hx | readTarget hx _
  | moreReadTargets hx | moreWritten hx => exact .keep nofun (by simp [hx])

/-! ## One lexeme and the frames -/

/-- The frames behind a lexeme that a goal takes. -/
inductive Turns (frames : List Frame) (x : Lexeme) : Goal → List Frame → Prop
  | keep {g : Goal} (hg : ∀ type, g ≠ .variableName type) (hx : x.category ∉ blockWords) : Turns frames x g frames
  | program (hx : x.category = .programWord) : Turns frames x .programWord [⟨false, []⟩]
  | body (hx : x.category = .beginWord) : Turns frames x .beginWord (⟨false, []⟩ :: frames)
  | opening {g : Goal} (hx : x.category = .compoundOpen) : Turns frames x g (⟨true, []⟩ :: frames)
  | closing {g : Goal} (hx : x.category = .compoundClose) (hin : frames.head?.any (·.compound)) :
      Turns frames x g frames.tail
  | ending (hx : x.category = .endWord) : Turns frames x .endWord frames.tail
  | declare {type : DataType} {f : Frame} {rest : List Frame} (hx : x.category = .unclassified)
      (hn : isIdentifier x.text) (hf : frames = f :: rest) (hfree : f.declared.lookup x.text = none) :
      Turns frames x (.variableName type) (f.add x.text type :: rest)

/-- The frames turn as the scope table is altered. -/
theorem turns_of_alters (ht : t.Shows frames) (h : Alters t x g t') :
    ∃ frames', t'.Shows frames' ∧ Turns frames x g frames' := by
  cases h with
  | keep hg hx => exact ⟨_, ht, .keep hg hx⟩
  | program hx => exact ⟨_, ht.openOutermost .program, .program hx⟩
  | body hx => exact ⟨_, ht.openInner .body, .body hx⟩
  | opening hx => exact ⟨_, ht.openInner (.compound 0), .opening hx⟩
  | closing hx hin => exact ⟨_, ht.closeBlock, .closing hx (ht.inCompound ▸ hin)⟩
  | ending hx => exact ⟨_, ht.closeBlock, .ending hx⟩
  | declare hx hn hc hd =>
    obtain ⟨f, rest, rfl⟩ := ht.exists_cons hc
    refine ⟨_, ht.declare hc hn hd, .declare hx hn rfl ?_⟩
    rw [← ScopeTable.lookup?_current ht.sound hc ht.frames_eq]
    exact ScopeTable.lookup?_of_declare_eq_ok hd

/-! ## Runs -/

/-- What holds of the first goals and the empty scope table and is kept by every goal that takes a word holds wherever a
run gets. -/
theorem invariant_of_alters {program : List Lexeme} {P : Nat → List Goal → ScopeTable → Prop}
    (h0 : P 0 [.programWord] .empty)
    (hquiet : ∀ {index : Nat} {goals : List Goal} {t : ScopeTable}, wordAt? program index = none →
      P index goals t → P (index + 1) goals t)
    (hword : ∀ {index : Nat} {x : Lexeme} {here : Place} {passed rest new : List Goal} {g : Goal}
      {t t' : ScopeTable}, wordAt? program index = some x → P index (passed ++ g :: rest) t → PassAll t here x passed →
      g.Plain → g.Takes t here x t' new → Alters t x g t' → P (index + 1) (new ++ rest) t')
    {index : Nat} {s : State} (hi : index ≤ program.length) (h : Reaches program index s) :
    P index s.goals s.scope := by
  have hinv : (∀ g ∈ s.goals, g.Plain) ∧ P index s.goals s.scope := by
    refine invariant_of_words (P := fun index goals t => (∀ g ∈ goals, g.Plain) ∧ P index goals t) ?_ ?_ ?_ hi h
    · exact ⟨by simp [Goal.Plain], h0⟩
    · rintro index goals t hx ⟨hplain, hP⟩
      exact ⟨hplain, hquiet hx hP⟩
    · rintro index x loose? passed rest new g t t' hx ⟨hplain, hP⟩ hpass hg
      have htakes := takes_of_onLexeme hg
      have hgoal : g.Plain := hplain g (by simp)
      refine ⟨fun g' hmem => ?_, hword hx hP hpass hgoal htakes (alters_of_takes hgoal htakes)⟩
      rcases List.mem_append.mp hmem with hmem | hmem
      · exact plain_of_takes htakes g' hmem
      · exact hplain g' (by simp [hmem])
  exact hinv.2

/-- What holds of the first goals without frames and is kept by every goal that takes a word holds wherever a run
gets, of its goals and of the frames that its scope table shows. -/
theorem invariant_of_turns {program : List Lexeme} {P : Nat → List Goal → List Frame → Prop}
    (h0 : P 0 [.programWord] [])
    (hquiet : ∀ {index : Nat} {goals : List Goal} {frames : List Frame}, wordAt? program index = none →
      P index goals frames → P (index + 1) goals frames)
    (hword : ∀ {index : Nat} {x : Lexeme} {here : Place} {passed rest new : List Goal} {g : Goal}
      {t t' : ScopeTable} {frames frames' : List Frame}, wordAt? program index = some x →
      P index (passed ++ g :: rest) frames → t.Shows frames → PassAll t here x passed → g.Plain →
      g.Takes t here x t' new → Turns frames x g frames' → P (index + 1) (new ++ rest) frames')
    {index : Nat} {s : State} (hi : index ≤ program.length) (h : Reaches program index s) :
    ∃ frames, s.scope.Shows frames ∧ P index s.goals frames := by
  refine invariant_of_alters (P := fun index goals t => ∃ frames, t.Shows frames ∧ P index goals frames) ?_ ?_ ?_ hi h
  · exact ⟨[], ScopeTable.shows_empty, h0⟩
  · rintro index goals t hx ⟨frames, ht, hP⟩
    exact ⟨frames, ht, hquiet hx hP⟩
  · rintro index x here passed rest new g t t' hx ⟨frames, ht, hP⟩ hpass hg htakes halters
    obtain ⟨frames', ht', hturns⟩ := turns_of_alters ht halters
    exact ⟨frames', ht', hword hx hP ht hpass hg htakes hturns⟩

end MiniPascal
