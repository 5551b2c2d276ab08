import MiniPascal.Proofs.Text.Places

/-!
# Lines of a text

A character that forms a pair with neither of its neighbours divides the text: its two sides are read as if each stood
alone. So the lexemes behind a line break are those of a text of their own, only further down.

* `pieces_append_cons`: a character that forms no pair divides a text.
* `wordsAndBreaks_space`, `wordsAndBreaks_lineBreak`: how spaces and line breaks divide the words of a text.
* `placeWords_lineBreak`, `placeWords_lower`: where the lexemes behind a line break stand.
* `tokenize_append_lineBreak`: the lexemes of two texts with a line break between them.
-/

namespace MiniPascal

variable {before behind word : List Char} {c : Char} {piece : Piece} {ps qs : List Piece}

/-! ## Pieces -/

/-- A character that forms a pair with neither of its neighbours is a piece, and the two sides of it are read apart. -/
theorem pieces_append_cons (hbefore : ∀ earlier b, before = earlier ++ [b] → Piece.pair? b c = none)
    (hbehind : Alone c behind) : pieces (before ++ c :: behind) = pieces before ++ .single c :: pieces behind := by
  induction before using pieces_induction with
  | nil => exact pieces_of_alone hbehind
  | pair b d piece rest hpair ih =>
    have hrest : ∀ earlier b', rest = earlier ++ [b'] → Piece.pair? b' c = none := by
      rintro earlier b' rfl
      exact hbefore (b :: d :: earlier) b' rfl
    rw [List.cons_append, List.cons_append, pieces_of_pair? hpair, ih hrest, pieces_of_pair? hpair, List.cons_append]
  | single b rest halone ih =>
    have hrest : ∀ earlier b', rest = earlier ++ [b'] → Piece.pair? b' c = none := by
      rintro earlier b' rfl
      exact hbefore (b :: earlier) b' rfl
    have halone' : Alone b (rest ++ c :: behind) := by
      cases rest with
      | nil =>
        rintro _ ⟨⟩
        exact hbefore [] b rfl
      | cons d rest => exact halone
    rw [List.cons_append, pieces_of_alone halone', ih hrest, pieces_of_alone halone, List.cons_append]

theorem pair?_space_left (c : Char) : Piece.pair? ' ' c = none := by
  simp [Piece.pair?_eq_none, isBreakPair, isSignPair]

theorem pair?_space_right (c : Char) : Piece.pair? c ' ' = none := by
  simp [Piece.pair?_eq_none, isBreakPair, isSignPair]

theorem pair?_lineFeed_left (h : c ≠ '\r') : Piece.pair? '\n' c = none := by
  simp [Piece.pair?_eq_none, isBreakPair, isSignPair, h]

theorem pair?_lineFeed_right (h : c ≠ '\r') : Piece.pair? c '\n' = none := by
  simp [Piece.pair?_eq_none, isBreakPair, isSignPair, h]

/-! ## Words -/

/-- The words of a text, line breaks among them. -/
def wordsAndBreaks (cs : List Char) : List (List Char) :=
  gather [] (pieces cs)

/-- Every piece but a letter ends the word before it. -/
theorem gather_append (hpiece : ∀ c, piece ≠ .letter c) :
    gather word (ps ++ piece :: qs) = gather word ps ++ gather [] (piece :: qs) := by
  induction ps generalizing word with
  | nil =>
    cases piece with
    | letter c => exact absurd rfl (hpiece c)
    | lineBreak cs | blank c | sign cs => simp
  | cons q ps ih => cases q <;> simp [ih]

/-- A space divides the words of a text. -/
theorem wordsAndBreaks_space (before behind : List Char) :
    wordsAndBreaks (before ++ ' ' :: behind) = wordsAndBreaks before ++ wordsAndBreaks behind := by
  have hpieces : pieces (before ++ ' ' :: behind) = pieces before ++ .blank ' ' :: pieces behind :=
    pieces_append_cons (fun _ b _ => pair?_space_right b) fun d _ => pair?_space_left d
  have hblank : ∀ c, Piece.blank ' ' ≠ .letter c := nofun
  rw [wordsAndBreaks, hpieces, gather_append hblank]
  rfl

/-- A line feed that is no half of a pair divides the words of a text and stands between them. -/
theorem wordsAndBreaks_lineBreak (hbefore : before.getLast? ≠ some '\r') (hbehind : behind.head? ≠ some '\r') :
    wordsAndBreaks (before ++ '\n' :: behind) = wordsAndBreaks before ++ ['\n'] :: wordsAndBreaks behind := by
  have hpieces : pieces (before ++ '\n' :: behind) = pieces before ++ .lineBreak ['\n'] :: pieces behind := by
    refine pieces_append_cons ?_ ?_
    · rintro earlier b rfl
      exact pair?_lineFeed_right fun hb => hbefore (by rw [List.getLast?_concat, hb])
    · rintro d hd
      exact pair?_lineFeed_left fun heq => hbehind (heq ▸ hd)
  have hbreak : ∀ c, Piece.lineBreak ['\n'] ≠ .letter c := nofun
  rw [wordsAndBreaks, hpieces, gather_append hbreak]
  rfl

@[simp]
theorem count_flush (h : Unbroken word) : (flush word).count ['\n'] = 0 := by
  by_cases hword : word = []
  · simp [hword]
  · simp [hword, h.ne_break]

/-- The line breaks of a text stand among its words. -/
theorem count_gather (hps : ∀ p ∈ ps, p.Proper) (h : Unbroken word) :
    (gather word ps).count ['\n'] = ps.countP Piece.isLineBreak := by
  induction ps generalizing word with
  | nil => simp [h]
  | cons p ps ih =>
    rw [List.forall_mem_cons] at hps
    obtain ⟨hp, hps⟩ := hps
    have hrest := ih hps unbroken_nil
    cases p with
    | lineBreak cs => simp [h, hrest, List.countP_cons]
    | blank c => simp [h, hrest]
    | sign cs => simp [h, hp.2.ne_break, hrest]
    | letter c => simp [ih hps (h.snoc hp)]

theorem count_wordsAndBreaks (cs : List Char) : (wordsAndBreaks cs).count ['\n'] = lineBreaks cs := by
  rw [lineBreaks_eq, wordsAndBreaks, count_gather (proper_of_mem_pieces cs) unbroken_nil]

/-! ## Places -/

/-- The place so many rows further down. -/
def Position.lower (p : Position) (n : Nat) : Position := ⟨p.row + n, p.col⟩

@[simp]
theorem Position.nextRow_lower (p : Position) (n : Nat) : (p.lower n).nextRow = p.nextRow.lower n := by
  simp [lower, nextRow, Nat.add_right_comm]

@[simp]
theorem Position.advance_lower (p : Position) (n k : Nat) : (p.lower n).advance k = (p.advance k).lower n := rfl

/-- The lexeme so many rows further down. -/
def Lexeme.lower (x : Lexeme) (n : Nat) : Lexeme := { x with position := x.position.lower n }

/-- A run of words that begins further down has all its lexemes further down. -/
theorem placeWords_lower (d : Dictionary) (p : Position) (n : Nat) (ws : List (List Char)) :
    placeWords d (p.lower n) ws = (placeWords d p ws).map (·.lower n) := by
  induction ws generalizing p with
  | nil => rfl
  | cons w ws ih =>
    by_cases hw : w = ['\n'] <;> simp [hw, ih, Lexeme.lower]

/-- Behind a line break a run of words begins at the left end of the next row. -/
theorem placeWords_lineBreak (d : Dictionary) (p : Position) (ws vs : List (List Char)) :
    placeWords d p (ws ++ ['\n'] :: vs) =
      placeWords d p ws ++ placeWords d ⟨p.row + (1 + ws.count ['\n']), 1⟩ vs := by
  induction ws generalizing p with
  | nil => exact if_pos rfl
  | cons w ws ih =>
    rw [List.cons_append, placeWords, placeWords]
    split
    case isTrue hw =>
      have hrow : p.nextRow.row + (1 + ws.count ['\n']) = p.row + (1 + (w :: ws).count ['\n']) := by
        have hnext : p.nextRow.row = p.row + 1 := rfl
        rw [hw, List.count_cons_self, hnext]
        omega
      rw [ih, hrow]
    case isFalse hw =>
      have hcount : (w :: ws).count ['\n'] = ws.count ['\n'] := List.count_cons_of_ne hw
      rw [ih, hcount, List.cons_append]
      rfl

/-! ## Lexemes -/

/-- The lexemes of two texts with a line feed between them are those of the first text and then those of the second one,
lowered by that line break and those of the first text. Only a carriage return beside the line feed would be a part of
the same line break. -/
theorem tokenize_append_lineBreak (d : Dictionary) (first second : String)
    (hfirst : first.toList.getLast? ≠ some '\r') (hsecond : second.toList.head? ≠ some '\r') :
    tokenize d (first ++ "\n" ++ second) =
      tokenize d first ++ (tokenize d second).map (·.lower (1 + lineBreaks first.toList)) := by
  have htext : (first ++ "\n" ++ second).toList = first.toList ++ '\n' :: second.toList := by simp
  calc tokenize d (first ++ "\n" ++ second)
      = placeWords d .start (wordsAndBreaks first.toList ++ ['\n'] :: wordsAndBreaks second.toList) := by
        rw [tokenize_eq, htext, ← wordsAndBreaks, wordsAndBreaks_lineBreak hfirst hsecond]
    _ = placeWords d .start (wordsAndBreaks first.toList) ++
          placeWords d (Position.start.lower (1 + lineBreaks first.toList)) (wordsAndBreaks second.toList) := by
        rw [placeWords_lineBreak, count_wordsAndBreaks]
        rfl
    _ = tokenize d first ++ (tokenize d second).map (·.lower (1 + lineBreaks first.toList)) := by
        rw [placeWords_lower, wordsAndBreaks, wordsAndBreaks, ← tokenize_eq, ← tokenize_eq]

/-- A colon before the line feed and an equals sign behind it form no operator. -/
theorem tokenize_colon_lineBreak_equals :
    ("a\n\r b:".toList.getLast? ≠ some '\r' ∧ "=\n\n\r>".toList.head? ≠ some '\r') ∧
    tokenize .builtin ("a\n\r b:" ++ "\n" ++ "=\n\n\r>") =
      [⟨"a", .unclassified, ⟨1, 1⟩⟩, ⟨"b:", .unclassified, ⟨2, 1⟩⟩, ⟨"=", .relation, ⟨3, 1⟩⟩,
        ⟨">", .relation, ⟨5, 1⟩⟩] := by
  have hends : "a\n\r b:".toList.getLast? ≠ some '\r' ∧ "=\n\n\r>".toList.head? ≠ some '\r' := by decide
  refine ⟨hends, (tokenize_append_lineBreak .builtin _ _ hends.1 hends.2).trans ?_⟩
  decide +kernel

end MiniPascal
