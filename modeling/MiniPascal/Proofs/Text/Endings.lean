import MiniPascal.Analysis
import MiniPascal.Dictionary.Builtin
import MiniPascal.Proofs.Text.Lines

/-!
# Endings of lines

A line may end with a line feed, a carriage return, or both in either order. A text that has line feeds only keeps its
normal form, and so its lexemes, their places and its report, where all of them are replaced by another ending: the pieces
of the text stay the same but for the characters of the line breaks, since no ending forms a pair with the one behind it.

* `LineEnding`, `LineEnding.convert`: the endings, and a text with one of them in place of every line feed.
* `pieces_withEnding`: the pieces of the new text.
* `normalize_convert`: its normal form, its lexemes and its report.
-/

namespace MiniPascal

/-! ## Endings -/

/-- What may stand at the end of a line. -/
inductive LineEnding where
  | lineFeed
  | carriageReturn
  | returnFeed
  | feedReturn
  deriving DecidableEq

namespace LineEnding

/-- The characters of an ending. -/
def chars : LineEnding → List Char
  | lineFeed => ['\n']
  | carriageReturn => ['\r']
  | returnFeed => ['\r', '\n']
  | feedReturn => ['\n', '\r']

end LineEnding

variable {ending : LineEnding} {cs rest : List Char} {c d : Char}

/-- The characters of a text with an ending in place of every line feed. -/
def withEnding (ending : LineEnding) (cs : List Char) : List Char :=
  cs.flatMap fun c => if c = '\n' then ending.chars else [c]

/-- The text with an ending in place of every line feed. -/
def LineEnding.convert (ending : LineEnding) (source : String) : String :=
  String.ofList (withEnding ending source.toList)

theorem withEnding_lineFeed (ending : LineEnding) (rest : List Char) :
    withEnding ending ('\n' :: rest) = ending.chars ++ withEnding ending rest := rfl

theorem withEnding_cons (hc : c ≠ '\n') : withEnding ending (c :: rest) = c :: withEnding ending rest := by
  rw [withEnding, List.flatMap_cons, if_neg hc]
  rfl

/-! ## Pieces -/

/-- The piece with an ending in place of its characters, if it is a line break. -/
def Piece.withEnding (ending : LineEnding) : Piece → Piece
  | .lineBreak _ => .lineBreak ending.chars
  | p => p

/-- What is set apart does not tell one line break from another. -/
theorem Piece.spread_withEnding (p : Piece) : (p.withEnding ending).spread = p.spread := by
  cases p <;> rfl

theorem Piece.withEnding_single (hc : isBreak c = false) : (Piece.single c).withEnding ending = .single c := by
  have hbreak : (Piece.single c).isLineBreak = false := (Piece.isLineBreak_single c).trans hc
  cases hp : Piece.single c with
  | lineBreak cs =>
    rw [hp] at hbreak
    cases hbreak
  | blank | sign | letter => rfl

/-- A text with another ending begins as before, or it begins with the ending. -/
theorem head?_withEnding (hd : d ∈ (withEnding ending cs).head?) : d ∈ cs.head? ∧ d ≠ '\n' ∨ d ∈ ending.chars.head? := by
  cases cs with
  | nil => cases hd
  | cons c rest =>
    by_cases hc : c = '\n'
    · rw [hc, withEnding_lineFeed] at hd
      right
      cases ending <;> exact hd
    · rw [withEnding_cons hc] at hd
      obtain rfl := Option.some.inj hd
      exact .inl ⟨rfl, hc⟩

theorem isBreak_of_mem_ending (hd : d ∈ ending.chars.head?) : isBreak d = true := by
  cases ending <;> obtain rfl := Option.some.inj hd <;> rfl

/-- A line break forms no operator with what stands before it. -/
theorem pair?_of_isBreak (hc : isBreak c = false) (hd : isBreak d = true) : Piece.pair? c d = none := by
  simp only [isBreak, Bool.or_eq_false_iff, decide_eq_false_iff_not] at hc
  simp only [isBreak, Bool.or_eq_true, decide_eq_true_eq] at hd
  rcases hd with rfl | rfl <;> simp [Piece.pair?_eq_none, isBreakPair, isSignPair, hc.1, hc.2]

/-- An ending is one piece, before another ending as well. -/
theorem pieces_ending (hrest : '\r' ∉ rest) :
    pieces (ending.chars ++ withEnding ending rest) = .lineBreak ending.chars :: pieces (withEnding ending rest) := by
  have hhead : ∀ d ∈ (withEnding ending rest).head?, d ≠ '\r' ∧ d ≠ '\n' ∨ d ∈ ending.chars.head? := by
    intro d hd
    rcases head?_withEnding hd with ⟨hmem, hne⟩ | hmem
    · refine .inl ⟨?_, hne⟩
      rintro rfl
      exact hrest (List.mem_of_head? hmem)
    · exact .inr hmem
  cases ending with
  | lineFeed =>
    refine pieces_of_alone fun d hd => pair?_lineFeed_left ?_
    rcases hhead d hd with hne | hmem
    · exact hne.1
    · obtain rfl := Option.some.inj hmem
      decide
  | carriageReturn =>
    refine pieces_of_alone fun d hd => ?_
    rcases hhead d hd with hne | hmem
    · simp [Piece.pair?_eq_none, isBreakPair, isSignPair, hne.2]
    · obtain rfl := Option.some.inj hmem
      rfl
  | returnFeed | feedReturn => exact pieces_of_pair? rfl

/-- The pieces of a text with another ending are those of the text, but for the characters of the line breaks. -/
theorem pieces_withEnding (ending : LineEnding) (hcs : '\r' ∉ cs) :
    pieces (withEnding ending cs) = (pieces cs).map (·.withEnding ending) := by
  induction cs using pieces_induction with
  | nil => rfl
  | pair c d piece rest h ih =>
    simp only [List.mem_cons, not_or] at hcs
    obtain ⟨hc, hd, hrest⟩ := hcs
    rcases Piece.pair?_cases h with ⟨hbreak, _⟩ | ⟨_, hsign, rfl⟩
    · simp [isBreakPair, Ne.symm hc, Ne.symm hd] at hbreak
    · have hfeed {b : Char} (hb : isBlank b = false) : b ≠ '\n' := by
        rintro rfl
        cases hb
      obtain ⟨hcblank, hdblank⟩ := not_isBlank_of_isSignPair hsign
      rw [withEnding_cons (hfeed hcblank), withEnding_cons (hfeed hdblank), pieces_of_pair? h, pieces_of_pair? h,
        List.map_cons, ih hrest]
      rfl
  | single c rest h ih =>
    simp only [List.mem_cons, not_or] at hcs
    obtain ⟨hc, hrest⟩ := hcs
    rw [pieces_of_alone h, List.map_cons, ← ih hrest]
    by_cases hfeed : c = '\n'
    · rw [hfeed, withEnding_lineFeed, pieces_ending hrest]
      rfl
    · have hbreak : isBreak c = false := by simp [isBreak, hfeed, Ne.symm hc]
      -- behind `c` stands what stood there before, or an ending in place of a line feed
      have halone : Alone c (withEnding ending rest) := by
        intro d hd
        rcases head?_withEnding hd with ⟨hmem, _⟩ | hmem
        · exact h d hmem
        · exact pair?_of_isBreak hbreak (isBreak_of_mem_ending hmem)
      rw [withEnding_cons hfeed, pieces_of_alone halone, Piece.withEnding_single hbreak]

/-! ## Texts -/

/-- A text whose lines end with line feeds has the same normal form with any other ending: the same lexemes in the same
places, and the same report. -/
theorem normalize_convert (ending : LineEnding) {source : String} (hsource : '\r' ∉ source.toList) :
    normalize (ending.convert source) = normalize source ∧
    ∀ d : Dictionary, tokenize d (ending.convert source) = tokenize d source ∧
      check d (ending.convert source) = check d source := by
  have hspread : spread (withEnding ending source.toList) = spread source.toList := by
    rw [spread_eq, pieces_withEnding ending hsource, List.flatMap_map, spread_eq]
    simp only [Piece.spread_withEnding]
  have hnormal : normalize (ending.convert source) = normalize source := by
    rw [normalize, LineEnding.convert, String.toList_ofList, hspread, normalize]
  have htokens (d : Dictionary) : tokenize d (ending.convert source) = tokenize d source := by
    rw [tokenize, hnormal, tokenize]
  exact ⟨hnormal, fun d => ⟨htokens d, by rw [check, htokens, check]⟩⟩

/-- Empty lines, and the characters of an operator on two lines. -/
theorem normalize_convert_crowded :
    '\r' ∉ "a:\n\n=\n".toList ∧
    LineEnding.returnFeed.convert "a:\n\n=\n" = "a:\r\n\r\n=\r\n" ∧
    LineEnding.feedReturn.convert "a:\n\n=\n" = "a:\n\r\n\r=\n\r" ∧
    LineEnding.carriageReturn.convert "a:\n\n=\n" = "a:\r\r=\r" ∧
    ∀ ending : LineEnding, normalize (ending.convert "a:\n\n=\n") = "a: \n \n = \n " ∧
      tokenize .builtin (ending.convert "a:\n\n=\n") = [⟨"a:", .unclassified, ⟨1, 1⟩⟩, ⟨"=", .relation, ⟨3, 1⟩⟩] := by
  have hsource : '\r' ∉ "a:\n\n=\n".toList := by decide
  refine ⟨hsource, by decide +kernel, by decide +kernel, by decide +kernel, fun ending => ?_⟩
  obtain ⟨hnormal, hreads⟩ := normalize_convert ending hsource
  exact ⟨hnormal.trans (by decide +kernel), (hreads .builtin).1.trans (by decide +kernel)⟩

end MiniPascal
