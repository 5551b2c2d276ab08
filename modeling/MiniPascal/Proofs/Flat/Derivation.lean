import MiniPascal.Proofs.Analysis.Step
import MiniPascal.Proofs.Flat.Operators
import MiniPascal.Proofs.Flat.Unambiguous

/-!
# The derivation of a program without brackets

A list of lexemes without comments and brackets on which nothing is reported is derived by a tree of the grammar. There
is one such tree in which every `else` belongs to the nearest conditional that waits for one, and in it no operator lies
in more bodies and branches than the limit allows (`derived_of_reports_nothing`).
-/

namespace MiniPascal

variable {input program : List Lexeme}

/-- The operators of a program are read, with the word `end` behind them. -/
theorem exists_body (h : Accepts [.operator .outermost, .moreOperators, .endWord] input) :
    ∃ (operators : List FlatOperator) (last : FlatOperator), Reads input (FlatProgram.bodyWords operators last) [] ∧
      ∀ {lists : List VariableList}, lists.all (·.proper) →
        FlatProgram.fills ⟨lists, operators, last⟩ ∧ FlatProgram.nearest ⟨lists, operators, last⟩ ∧
          FlatProgram.nesting ⟨lists, operators, last⟩ ≤ maxNesting := by
  induction hn : input.length using Nat.strongRecOn generalizing input with
  | ind n ih =>
    subst hn
    obtain ⟨o, next, left, ho, h₁⟩ := exists_operator (by simp) h
    have hfills : o.fills false next.canonical := ho.fills
    have hnesting : 0 + o.nesting ≤ maxNesting := ho.nesting
    rcases h₁.take_or_rest with ⟨t, here, x, left', t', new, ht, heq, htakes, h₂⟩ | h₂
    · obtain ⟨rfl, rfl⟩ := List.cons.inj heq
      cases htakes with
      | moreOperators hx =>
        have hnext : next.canonical = semicolonWord := canonical_eq hx (by decide)
        have hlt : left.length < input.length := by
          have := ho.reads.length
          simp only [List.length_cons] at this
          omega
        obtain ⟨operators, last, hreads, hplace⟩ := ih _ hlt h₂ rfl
        refine ⟨o :: operators, last, ?_, fun hlists => ?_⟩
        · have := ho.reads.append (.cons hnext hreads)
          simpa [FlatProgram.bodyWords] using this
        · obtain ⟨hf, hne, hle⟩ := hplace hlists
          have hnearest := ho.nearest
          rw [hnext] at hfills hnearest
          simp only [FlatProgram.fills, Bool.and_eq_true] at hf
          simp only [FlatProgram.nearest, Bool.and_eq_true] at hne
          refine ⟨by simp [FlatProgram.fills, hf, hfills], by simp [FlatProgram.nearest, hne, hnearest], ?_⟩
          simp only [FlatProgram.nesting, List.map_cons, List.foldr_cons] at hle ⊢
          omega
    · obtain ⟨t, here, x, left', t', new, ht, heq, htakes, h₃⟩ := h₂.take rfl
      obtain ⟨rfl, rfl⟩ := List.cons.inj heq
      cases htakes with
      | endWord hx =>
        obtain rfl := h₃.eq_nil
        have hnext : next.canonical = endWord := canonical_eq hx (by decide)
        have hnearest := ho.nearest
        rw [hnext] at hfills hnearest
        refine ⟨[], o, ho.reads.append (.cons hnext (.refl [])), fun hlists => ?_⟩
        refine ⟨by simp [FlatProgram.fills, hlists, hfills], by simp [FlatProgram.nearest, hnearest], ?_⟩
        simp only [FlatProgram.nesting, List.map_nil, List.foldr_nil]
        omega

/-- What is accepted without comments and brackets is derived by a tree. -/
theorem exists_derives (hflat : Flat program) (h : (analyze program).diagnostic? = none) :
    ∃ p : FlatProgram, p.Derives program ∧ p.nearest ∧ p.nesting ≤ maxNesting := by
  rw [diagnostic?_analyze, Option.map_eq_none_iff] at h
  have hstart : Accepts [.programWord] program :=
    ⟨hflat, by simp [Goal.Plain], .empty, 0, ⟨[], ScopeTable.shows_empty, rfl⟩, h⟩
  obtain ⟨t, here, x, left, t', new, ht, rfl, htakes, h₁⟩ := hstart.take rfl
  cases htakes with
  | programWord hx =>
    obtain ⟨lists, left₁, hproper, hlists, h₂⟩ := exists_lists h₁
    obtain ⟨t, here, y, left₂, t', new, ht, rfl, htakes, h₃⟩ := h₂.take rfl
    cases htakes with
    | beginWord hy =>
      obtain ⟨operators, last, hbody, hplace⟩ := exists_body h₃
      obtain ⟨hfills, hnearest, hnesting⟩ := hplace hproper
      refine ⟨⟨lists, operators, last⟩, ⟨?_, hfills⟩, hnearest, hnesting⟩
      have hreads := hlists.append (.cons (canonical_eq hy (by decide)) hbody)
      have := Reads.cons (canonical_eq hx (by decide)) hreads
      rwa [Reads, List.map_nil, List.append_nil] at this

/-- A list of lexemes without comments and brackets on which nothing is reported has exactly one derivation that
attaches every `else` to the nearest conditional that waits, and no operator lies too deep in it. -/
theorem derived_of_reports_nothing (hflat : Flat program) (h : (analyze program).diagnostic? = none) :
    ∃ p : FlatProgram, p.Derives program ∧ p.nearest ∧ p.nesting ≤ maxNesting ∧
      ∀ q : FlatProgram, q.Derives program → q.nearest → q = p := by
  obtain ⟨p, hp, hnearest, hnesting⟩ := exists_derives hflat h
  refine ⟨p, hp, hnearest, hnesting, fun q hq hqnearest => ?_⟩
  exact FlatProgram.eq_of_words hq.fills hp.fills hqnearest hnearest (hq.words.symm.trans hp.words)

/-- A program with an empty body before an `else`, a conditional without one and an empty operator before `end`. -/
def dangling : FlatProgram where
  lists := [⟨.int, "n", ["m"], true⟩]
  operators :=
    [.ifElse ⟨⟨⟨none, .named "n"⟩, []⟩, []⟩
      (.whileDo ⟨⟨⟨none, .named "m"⟩, []⟩, [(.relation "<", ⟨⟨none, .literal "2"⟩, []⟩)]⟩ .empty)
      (.ifThen ⟨⟨⟨none, .named "m"⟩, []⟩, []⟩
        (.assign ⟨"n", ":=", ⟨⟨none, .named "n"⟩, [(.addition "-", ⟨none, .named "m"⟩)]⟩⟩))]
  last := .declaring ⟨.bool, "b", [], true⟩ .empty

theorem dangling_derived :
    Flat (dangling.words.map (·.lexeme)) ∧ (analyze (dangling.words.map (·.lexeme))).diagnostic? = none ∧
      ∃ p : FlatProgram, p.Derives (dangling.words.map (·.lexeme)) ∧ p.nearest ∧ p.nesting ≤ maxNesting ∧
        ∀ q : FlatProgram, q.Derives (dangling.words.map (·.lexeme)) → q.nearest → q = p := by
  have hflat : Flat (dangling.words.map (·.lexeme)) := by unfold Flat; decide
  have hnone : (analyze (dangling.words.map (·.lexeme))).diagnostic? = none := by
    rw [diagnostic?_analyze, show breach? (dangling.words.map (·.lexeme)) = none by decide +kernel]
    rfl
  exact ⟨hflat, hnone, derived_of_reports_nothing hflat hnone⟩

end MiniPascal
