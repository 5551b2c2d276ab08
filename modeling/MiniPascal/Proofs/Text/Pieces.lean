import MiniPascal.Lexeme.Tokenize

/-!
# Pieces of a text

A text is read in pieces: line breaks, other blanks, operators, and the characters of words. A line break or an operator
may have two characters, and only to find those does one look ahead. What the words of the normal form are is told from
the pieces one by one.

* `pieces`: the pieces of a text, and `pieces_induction` to argue along them.
* `pieces_of_append`: they do not depend on what follows.
* `gather`, `words_normalize`: the words of a text, put together from its pieces.
-/

namespace MiniPascal

variable {cs rest word : List Char} {c d : Char} {piece : Piece} {ps qs : List Piece}

/-! ## Blanks -/

/-- A word has no blanks in it. -/
def Unbroken (word : List Char) : Prop :=
  ∀ c ∈ word, isBlank c = false

@[simp]
theorem unbroken_nil : Unbroken [] := nofun

theorem Unbroken.snoc (h : Unbroken word) (hc : isBlank c = false) : Unbroken (word ++ [c]) := by
  intro c' hmem
  rcases List.mem_append.mp hmem with hmem | hmem
  · exact h c' hmem
  · exact List.mem_singleton.mp hmem ▸ hc

theorem Unbroken.not_space (h : Unbroken word) : ' ' ∉ word :=
  fun hmem => absurd (h _ hmem) (by decide)

theorem Unbroken.ne_break (h : Unbroken word) : word ≠ ['\n'] := by
  rintro rfl
  exact absurd (h '\n' (List.mem_singleton_self _)) (by decide)

theorem isBlank_of_isBreakPair (h : isBreakPair c d = true) : isBlank c = true ∧ isBlank d = true := by
  simp only [isBreakPair, Bool.or_eq_true, Bool.and_eq_true, decide_eq_true_eq] at h
  rcases h with ⟨rfl, rfl⟩ | ⟨rfl, rfl⟩ <;> decide

theorem not_isBlank_of_isSign (h : isSign c = true) : isBlank c = false := by
  simp only [isSign, decide_eq_true_eq, List.mem_cons, List.not_mem_nil, or_false] at h
  rcases h with rfl | rfl | rfl | rfl | rfl | rfl | rfl | rfl | rfl | rfl | rfl | rfl | rfl | rfl | rfl <;> decide

theorem not_isBlank_of_isSignPair (h : isSignPair c d = true) : isBlank c = false ∧ isBlank d = false := by
  simp only [isSignPair, decide_eq_true_eq, List.mem_cons, Prod.mk.injEq, List.not_mem_nil, or_false] at h
  rcases h with ⟨rfl, rfl⟩ | ⟨rfl, rfl⟩ | ⟨rfl, rfl⟩ | ⟨rfl, rfl⟩ <;> decide

/-! ## Pieces -/

/-- What is read at once. -/
inductive Piece where
  | lineBreak (cs : List Char)
  | blank (c : Char)
  | sign (cs : List Char)
  | letter (c : Char)

namespace Piece

/-- The piece of two characters, if they form one. -/
def pair? (c d : Char) : Option Piece :=
  if isBreakPair c d then some (.lineBreak [c, d])
  else if isSignPair c d then some (.sign [c, d])
  else none

/-- The piece of a character that forms none with the one behind it. -/
def single (c : Char) : Piece :=
  if isBreak c then .lineBreak [c]
  else if isSign c then .sign [c]
  else if isBlank c then .blank c
  else .letter c

def chars : Piece → List Char
  | .lineBreak cs => cs
  | .blank c => [c]
  | .sign cs => cs
  | .letter c => [c]

/-- What becomes of a piece where operators and line breaks are set apart. -/
def spread : Piece → List Char
  | .lineBreak _ => spacedBreak
  | .blank _ => [' ']
  | .sign cs => ' ' :: (cs ++ [' '])
  | .letter c => [c]

@[simp]
theorem chars_lineBreak (cs : List Char) : (lineBreak cs).chars = cs := rfl

@[simp]
theorem chars_blank (c : Char) : (blank c).chars = [c] := rfl

@[simp]
theorem chars_sign (cs : List Char) : (sign cs).chars = cs := rfl

@[simp]
theorem chars_letter (c : Char) : (letter c).chars = [c] := rfl

@[simp]
theorem spread_lineBreak (cs : List Char) : (lineBreak cs).spread = spacedBreak := rfl

@[simp]
theorem spread_blank (c : Char) : (blank c).spread = [' '] := rfl

@[simp]
theorem spread_sign (cs : List Char) : (sign cs).spread = ' ' :: (cs ++ [' ']) := rfl

@[simp]
theorem spread_letter (c : Char) : (letter c).spread = [c] := rfl

/-- A piece has the characters of its kind. -/
def Proper : Piece → Prop
  | .lineBreak cs => cs ≠ [] ∧ ∀ c ∈ cs, isBlank c = true
  | .blank c => isBlank c = true
  | .sign cs => cs ≠ [] ∧ Unbroken cs
  | .letter c => isBlank c = false

theorem pair?_cases (h : pair? c d = some piece) : isBreakPair c d = true ∧ piece = .lineBreak [c, d] ∨
    isBreakPair c d = false ∧ isSignPair c d = true ∧ piece = .sign [c, d] := by
  unfold pair? at h
  split at h
  case isTrue hbreak => exact .inl ⟨hbreak, (Option.some.inj h).symm⟩
  split at h
  case isTrue hbreak hsign => exact .inr ⟨Bool.eq_false_iff.mpr hbreak, hsign, (Option.some.inj h).symm⟩
  case isFalse => cases h

theorem pair?_eq_none : pair? c d = none ↔ isBreakPair c d = false ∧ isSignPair c d = false := by
  unfold pair?
  split
  case isTrue hbreak => simp [hbreak]
  split
  case isTrue hbreak hsign => simp [hsign]
  case isFalse hbreak hsign => simp [hbreak, hsign]

theorem chars_of_pair? (h : pair? c d = some piece) : piece.chars = [c, d] := by
  rcases pair?_cases h with ⟨_, rfl⟩ | ⟨_, _, rfl⟩
  · rfl
  · rfl

theorem proper_of_pair? (h : pair? c d = some piece) : piece.Proper := by
  rcases pair?_cases h with ⟨hbreak, rfl⟩ | ⟨_, hsign, rfl⟩
  · exact ⟨by simp, by simpa using isBlank_of_isBreakPair hbreak⟩
  · exact ⟨by simp, by simpa [Unbroken] using not_isBlank_of_isSignPair hsign⟩

@[simp]
theorem chars_single (c : Char) : (single c).chars = [c] := by
  unfold single
  repeat' split
  all_goals rfl

@[simp]
theorem spread_single (c : Char) : (single c).spread = spreadOne c := by
  unfold single spreadOne
  repeat' split
  all_goals rfl

theorem proper_single (c : Char) : (single c).Proper := by
  unfold single
  split
  case isTrue hbreak => exact ⟨by simp, by simpa using isBlank_of_isBreak hbreak⟩
  split
  case isTrue hsign => exact ⟨by simp, by simpa [Unbroken] using not_isBlank_of_isSign hsign⟩
  split
  case isTrue hblank => exact hblank
  case isFalse hblank => exact Bool.eq_false_iff.mpr hblank

end Piece

/-- The pieces of a text. -/
def pieces : List Char → List Piece
  | [] => []
  | [c] => [.single c]
  | c :: d :: rest =>
    match Piece.pair? c d with
    | some piece => piece :: pieces rest
    | none => .single c :: pieces (d :: rest)

/-- A character forms no piece with the one behind it. -/
def Alone (c : Char) (rest : List Char) : Prop :=
  ∀ d ∈ rest.head?, Piece.pair? c d = none

theorem pieces_of_pair? (h : Piece.pair? c d = some piece) : pieces (c :: d :: rest) = piece :: pieces rest := by
  rw [pieces, h]

theorem pieces_of_alone (h : Alone c rest) : pieces (c :: rest) = .single c :: pieces rest := by
  cases rest with
  | nil => rfl
  | cons d rest => rw [pieces, h d rfl]

/-- An argument along the pieces of a text. -/
@[elab_as_elim]
theorem pieces_induction {P : List Char → Prop} (nil : P [])
    (pair : ∀ c d piece rest, Piece.pair? c d = some piece → P rest → P (c :: d :: rest))
    (single : ∀ c rest, Alone c rest → P rest → P (c :: rest)) (cs : List Char) : P cs := by
  induction cs using pieces.induct with
  | case1 => exact nil
  | case2 c => exact single c [] nofun nil
  | case3 c d rest piece h ih => exact pair c d piece rest h ih
  | case4 c d rest h ih =>
    refine single c (d :: rest) ?_ ih
    rintro _ ⟨⟩
    exact h

@[simp]
theorem chars_pieces (cs : List Char) : (pieces cs).flatMap Piece.chars = cs := by
  induction cs using pieces_induction with
  | nil => rfl
  | pair c d piece rest h ih => simp [pieces_of_pair? h, Piece.chars_of_pair? h, ih]
  | single c rest h ih => simp [pieces_of_alone h, ih]

theorem proper_of_mem_pieces (cs : List Char) : ∀ p ∈ pieces cs, p.Proper := by
  induction cs using pieces_induction with
  | nil => nofun
  | pair c d piece rest h ih =>
    rw [pieces_of_pair? h, List.forall_mem_cons]
    exact ⟨Piece.proper_of_pair? h, ih⟩
  | single c rest h ih =>
    rw [pieces_of_alone h, List.forall_mem_cons]
    exact ⟨Piece.proper_single c, ih⟩

/-- What follows some of the pieces of a text has no part in them. -/
theorem pieces_of_append (h : pieces cs = ps ++ qs) : pieces (ps.flatMap Piece.chars) = ps := by
  induction cs using pieces_induction generalizing ps with
  | nil =>
    obtain ⟨rfl, _⟩ := List.append_eq_nil_iff.mp h.symm
    rfl
  | pair c d piece rest hpair ih =>
    rw [pieces_of_pair? hpair] at h
    cases ps with
    | nil => rfl
    | cons p ps =>
      obtain ⟨rfl, htail⟩ := List.cons.inj h
      simp [Piece.chars_of_pair? hpair, pieces_of_pair? hpair, ih htail]
  | single c rest halone ih =>
    rw [pieces_of_alone halone] at h
    cases ps with
    | nil => rfl
    | cons p ps =>
      obtain ⟨rfl, htail⟩ := List.cons.inj h
      have hrest : rest = ps.flatMap Piece.chars ++ qs.flatMap Piece.chars := by
        rw [← List.flatMap_append, ← show pieces rest = ps ++ qs from htail, chars_pieces]
      -- what stands behind `c` in the pieces stands there in the whole text too
      have halone' : Alone c (ps.flatMap Piece.chars) := by
        intro d hd
        refine halone d ?_
        rw [hrest, List.head?_append, Option.mem_def.mp hd]
        rfl
      simp [pieces_of_alone halone', ih htail]

/-! ## Words -/

/-- A word that is complete, if there is one. -/
def flush (word : List Char) : List (List Char) :=
  if word = [] then [] else [word]

@[simp]
theorem flush_nil : flush [] = [] := rfl

@[simp]
theorem flush_of_ne (h : word ≠ []) : flush word = [word] :=
  if_neg h

/-- The words of a text put together from its pieces, line breaks among them; `word` is what has been read of one. -/
@[simp]
def gather (word : List Char) : List Piece → List (List Char)
  | [] => flush word
  | .lineBreak _ :: rest => flush word ++ ['\n'] :: gather [] rest
  | .blank _ :: rest => flush word ++ gather [] rest
  | .sign cs :: rest => flush word ++ cs :: gather [] rest
  | .letter c :: rest => gather (word ++ [c]) rest

theorem words_of_unbroken (h : Unbroken word) : words word = flush word := by
  have hsplit : word.splitOn ' ' = [word] :=
    List.splitOnP_eq_singleton fun c hc => beq_eq_false_iff_ne.mpr fun heq => h.not_space (heq ▸ hc)
  by_cases hword : word = [] <;> simp [words, hsplit, hword]

theorem words_append_space (cs rest : List Char) : words (cs ++ ' ' :: rest) = words cs ++ words rest := by
  have hsplit : (cs ++ ' ' :: rest).splitOn ' ' = cs.splitOn ' ' ++ rest.splitOn ' ' :=
    List.splitOnP_append_cons _ _ (beq_self_eq_true ' ')
  rw [words, hsplit, List.filter_append, words, words]

theorem words_space (rest : List Char) : words (' ' :: rest) = words rest :=
  words_append_space [] rest

/-- Runs of spaces tell the same words apart as single ones. -/
theorem words_squeeze (cs rest : List Char) : words (cs ++ squeeze rest) = words (cs ++ rest) := by
  induction rest using squeeze.induct generalizing cs with
  | case1 rest ih => rw [squeeze, ih, words_append_space, words_append_space, words_space]
  | case2 c rest hne ih =>
    have hrest := ih (cs ++ [c])
    rw [List.append_assoc, List.append_assoc] at hrest
    rw [squeeze.eq_2 _ _ hne]
    exact hrest
  | case3 => rfl

theorem spread_eq (cs : List Char) : spread cs = (pieces cs).flatMap Piece.spread := by
  induction cs using pieces_induction with
  | nil => rfl
  | pair c d piece rest h ih =>
    rw [pieces_of_pair? h, List.flatMap_cons, ← ih, spread]
    rcases Piece.pair?_cases h with ⟨hbreak, rfl⟩ | ⟨hbreak, hsign, rfl⟩
    · rw [if_pos hbreak]
      rfl
    · rw [hbreak, if_neg Bool.false_ne_true, if_pos hsign]
      rfl
  | single c rest h ih =>
    rw [pieces_of_alone h, List.flatMap_cons, ← ih, Piece.spread_single]
    cases rest with
    | nil => rw [spread, spread, List.append_nil]
    | cons d rest =>
      obtain ⟨hbreak, hsign⟩ := Piece.pair?_eq_none.mp (h d rfl)
      rw [spread, hbreak, hsign, if_neg Bool.false_ne_true, if_neg Bool.false_ne_true]

theorem words_spread (hps : ∀ p ∈ ps, p.Proper) (h : Unbroken word) :
    words (word ++ ps.flatMap Piece.spread) = gather word ps := by
  induction ps generalizing word with
  | nil => rw [List.flatMap_nil, List.append_nil, words_of_unbroken h, gather]
  | cons p ps ih =>
    rw [List.forall_mem_cons] at hps
    obtain ⟨hp, hps⟩ := hps
    have hrest : words (ps.flatMap Piece.spread) = gather [] ps := ih hps unbroken_nil
    have hapart (w : List Char) : words (word ++ ' ' :: (w ++ ' ' :: ps.flatMap Piece.spread)) =
        flush word ++ (words w ++ gather [] ps) := by
      rw [words_append_space, words_append_space, words_of_unbroken h, hrest]
    rw [List.flatMap_cons]
    cases p with
    | lineBreak cs => exact hapart ['\n']
    | blank c =>
      have hblank := words_append_space word (ps.flatMap Piece.spread)
      rw [words_of_unbroken h, hrest] at hblank
      exact hblank
    | sign cs =>
      have hsign := hapart cs
      rw [words_of_unbroken hp.2, flush_of_ne hp.1] at hsign
      simpa using hsign
    | letter c => simpa using ih hps (h.snoc hp)

/-- The words of a normal text are those of the pieces of the text. -/
theorem words_normalize (source : String) : words (normalize source).toList = gather [] (pieces source.toList) := by
  have hspread : words (spread source.toList) = gather [] (pieces source.toList) := by
    rw [spread_eq]
    exact words_spread (proper_of_mem_pieces _) unbroken_nil
  rw [normalize, String.toList_ofList, ← hspread]
  exact words_squeeze [] _

theorem tokenize_eq (d : Dictionary) (source : String) :
    tokenize d source = placeWords d .start (gather [] (pieces source.toList)) := by
  rw [tokenize, words_normalize]

end MiniPascal
