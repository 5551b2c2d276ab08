import MiniPascal.Proofs.Text.Scan

/-!
# Where lexemes stand

The row of a lexeme counts the line breaks before it in the text, and its column the characters of the lexemes before it
on its row.

* `Position.Precedes`: the order of places, by rows and then by columns.
* `lineBreaks`, `lineBreaks_eq`: the line breaks of a text.
* `Placed`: what holds of the lexemes of the pieces that have been read; `Placed.inner`, `Placed.flush`, `Placed.blank`
  and `Placed.lineBreak` are the steps, `placed_gather` the run.
* `tokenize_stands`: the places of the lexemes of a text, and their order.
-/

namespace MiniPascal

variable {source cs rest word : List Char} {c d : Char} {piece : Piece} {ps qs : List Piece} {xs : List Lexeme}
  {x : Lexeme} {p q r : Position}

/-! ## The order of places -/

namespace Position

/-- A place lies before another one, on a row above or further left on the same row. -/
def Precedes (p q : Position) : Prop :=
  p.row < q.row ∨ p.row = q.row ∧ p.col < q.col

theorem Precedes.ne (h : p.Precedes q) : p ≠ q := by
  rintro rfl
  simp [Precedes] at h

theorem Precedes.trans (h : p.Precedes q) (h' : q.Precedes r) : p.Precedes r := by
  unfold Precedes at *
  omega

theorem Precedes.advance (h : p.Precedes q) (n : Nat) : p.Precedes (q.advance n) := by
  unfold Precedes Position.advance at *
  dsimp only
  omega

theorem Precedes.nextRow (h : p.Precedes q) : p.Precedes q.nextRow := by
  unfold Precedes Position.nextRow at *
  dsimp only
  omega

theorem precedes_advance {n : Nat} (hn : 0 < n) : p.Precedes (p.advance n) :=
  .inr ⟨rfl, Nat.lt_add_of_pos_right hn⟩

end Position

/-! ## Line breaks -/

/-- The line breaks of a text. From the left, two different break characters one behind the other are one of them. -/
def lineBreaks : List Char → Nat
  | [] => 0
  | [c] => if isBreak c then 1 else 0
  | c :: d :: rest =>
    if isBreakPair c d then lineBreaks rest + 1
    else if isBreak c then lineBreaks (d :: rest) + 1
    else lineBreaks (d :: rest)

def Piece.isLineBreak : Piece → Bool
  | .lineBreak _ => true
  | _ => false

namespace Piece

@[simp]
theorem isLineBreak_lineBreak (cs : List Char) : (lineBreak cs).isLineBreak = true := rfl

@[simp]
theorem isLineBreak_blank (c : Char) : (blank c).isLineBreak = false := rfl

@[simp]
theorem isLineBreak_sign (cs : List Char) : (sign cs).isLineBreak = false := rfl

@[simp]
theorem isLineBreak_letter (c : Char) : (letter c).isLineBreak = false := rfl

@[simp]
theorem isLineBreak_single (c : Char) : (single c).isLineBreak = isBreak c := by
  unfold single
  cases isBreak c with
  | true => rfl
  | false =>
    repeat' split
    all_goals first | rfl | contradiction

end Piece

theorem lineBreaks_of_isBreak (halone : Alone c rest) (h : isBreak c = true) :
    lineBreaks (c :: rest) = lineBreaks rest + 1 := by
  cases rest with
  | nil => simp [lineBreaks, h]
  | cons d rest => simp [lineBreaks, (Piece.pair?_eq_none.mp (halone d rfl)).1, h]

@[simp]
theorem lineBreaks_of_not_isBreak (h : isBreak c = false) : lineBreaks (c :: rest) = lineBreaks rest := by
  cases rest with
  | nil => simp [lineBreaks, h]
  | cons d rest =>
    have hpair : isBreakPair c d = false := by
      simp only [isBreak, Bool.or_eq_false_iff] at h
      simp [isBreakPair, h.1, h.2]
    simp [lineBreaks, hpair, h]

theorem not_isBreak_of_not_isBlank (h : isBlank c = false) : isBreak c = false := by
  refine Bool.eq_false_iff.mpr fun hbreak => ?_
  rw [isBlank_of_isBreak hbreak] at h
  cases h

theorem lineBreaks_eq (cs : List Char) : lineBreaks cs = (pieces cs).countP Piece.isLineBreak := by
  induction cs using pieces_induction with
  | nil => rfl
  | pair c d piece rest h ih =>
    rw [pieces_of_pair? h]
    rcases Piece.pair?_cases h with ⟨hbreak, rfl⟩ | ⟨_, hsign, rfl⟩
    · simp [lineBreaks, hbreak, ih, List.countP_cons]
    · obtain ⟨hc, hd⟩ := not_isBlank_of_isSignPair hsign
      simp [not_isBreak_of_not_isBlank hc, not_isBreak_of_not_isBlank hd, ih]
  | single c rest h ih =>
    rw [pieces_of_alone h]
    cases hc : isBreak c with
    | true => simp [lineBreaks_of_isBreak h hc, hc, ih]
    | false => simp [hc, ih]

/-- The line breaks before a piece of a text. -/
theorem lineBreaks_chars (h : pieces source = ps ++ qs) :
    lineBreaks (ps.flatMap Piece.chars) = ps.countP Piece.isLineBreak := by
  rw [lineBreaks_eq, pieces_of_append h]

/-! ## Places -/

/-- The number of characters that the lexemes of a row have. -/
def rowLength (xs : List Lexeme) (row : Nat) : Nat :=
  ((xs.filter (·.position.row = row)).flatMap (·.text.toList)).length

/-- Where a lexeme stands in a text behind some other ones. Before it in the text there are those and blanks, and
nothing else. Its row counts the line breaks there, and its column the characters of the earlier lexemes of its row. -/
structure Stands (source : List Char) (earlier : List Lexeme) (x : Lexeme) : Prop where
  row : ∃ before after, source = before ++ x.text.toList ++ after ∧
    before.filter (!isBlank ·) = earlier.flatMap (·.text.toList) ∧ x.position.row = 1 + lineBreaks before
  col : x.position.col = 1 + rowLength earlier x.position.row

theorem rowLength_concat (xs : List Lexeme) (x : Lexeme) :
    rowLength (xs ++ [x]) x.position.row = rowLength xs x.position.row + x.text.length := by
  simp [rowLength, String.length_toList]

/-- What holds once some of the pieces of a text have been read: a word of which the lexemes `xs` lie before it has been
begun at the place `p`. -/
structure Placed (source : List Char) (ps : List Piece) (xs : List Lexeme) (word : List Char) (p : Position) :
    Prop where
  begun : ∃ before inner, ps = before ++ inner ∧ inner.flatMap Piece.chars = word ∧ inner.countP Piece.isLineBreak = 0 ∧
    (before.flatMap Piece.chars).filter (!isBlank ·) = xs.flatMap (·.text.toList)
  row : p.row = 1 + ps.countP Piece.isLineBreak
  col : p.col = 1 + rowLength xs p.row
  precedes : ∀ x ∈ xs, x.position.Precedes p
  stands : ∀ earlier x later, xs = earlier ++ x :: later → Stands source earlier x
  sorted : xs.Pairwise fun x y => x.position.Precedes y.position

namespace Placed

theorem start (source : List Char) : Placed source [] [] [] .start :=
  ⟨⟨[], [], rfl, rfl, rfl, rfl⟩, rfl, rfl, nofun, by simp, .nil⟩

/-- A word is begun or goes on. -/
theorem inner (h : Placed source ps xs word p) (hpiece : piece.isLineBreak = false) :
    Placed source (ps ++ [piece]) xs (word ++ piece.chars) p := by
  obtain ⟨before, inner, hps, hword, hbreaks, htexts⟩ := h.begun
  refine ⟨⟨before, inner ++ [piece], ?_, ?_, ?_, htexts⟩, ?_, h.col, h.precedes, h.stands, h.sorted⟩
  · simp [hps]
  · simp [hword]
  · simp [List.countP_append, hbreaks, hpiece]
  · simp [hpiece, h.row]

/-- What blanks leave of the text between two words. -/
theorem filter_chars (h : Placed source ps xs [] p) (hpiece : ∀ c ∈ piece.chars, isBlank c = true) :
    ((ps ++ [piece]).flatMap Piece.chars).filter (!isBlank ·) = xs.flatMap (·.text.toList) := by
  obtain ⟨before, inner, rfl, hword, _, htexts⟩ := h.begun
  have hblank : piece.chars.filter (!isBlank ·) = [] := by simpa using hpiece
  simpa [hword, hblank] using htexts

/-- A blank stands between words. -/
theorem blank (h : Placed source ps xs [] p) (hc : isBlank c = true) : Placed source (ps ++ [.blank c]) xs [] p := by
  have hcs : ∀ d ∈ (Piece.blank c).chars, isBlank d = true := by simpa using hc
  refine ⟨⟨_, [], (List.append_nil _).symm, rfl, rfl, h.filter_chars hcs⟩, ?_, h.col, h.precedes, h.stands, h.sorted⟩
  simp [h.row]

/-- A line break stands between words and begins a row with no lexemes on it. -/
theorem lineBreak (h : Placed source ps xs [] p) (hcs : ∀ c ∈ cs, isBlank c = true) :
    Placed source (ps ++ [.lineBreak cs]) xs [] p.nextRow := by
  refine ⟨⟨_, [], (List.append_nil _).symm, rfl, rfl, h.filter_chars hcs⟩, ?_, ?_, ?_, h.stands, h.sorted⟩
  · rw [List.countP_append, Position.nextRow, h.row]
    rfl
  · have hnone : xs.filter (·.position.row = p.row + 1) = [] := by
      refine List.filter_eq_nil_iff.mpr fun x hx => ?_
      have := h.precedes x hx
      simp only [Position.Precedes, decide_eq_true_eq] at this ⊢
      omega
    rw [Position.nextRow, rowLength, hnone]
    rfl
  · exact fun x hx => (h.precedes x hx).nextRow

/-- A lexeme stands where its word has been begun. -/
theorem stands_next (h : Placed source ps xs word p) (hsource : pieces source = ps ++ qs)
    (htext : x.text.toList = word) (hposition : x.position = p) : Stands source xs x := by
  obtain ⟨before, inner, rfl, hinner, hbreaks, htexts⟩ := h.begun
  constructor
  · refine ⟨before.flatMap Piece.chars, qs.flatMap Piece.chars, ?_, htexts, ?_⟩
    · rw [htext, ← hinner, ← List.flatMap_append, ← List.flatMap_append, ← hsource, chars_pieces]
    · rw [hposition, h.row, List.countP_append, hbreaks, Nat.add_zero,
        lineBreaks_chars (hsource.trans (List.append_assoc _ _ _))]
  · rw [hposition, h.col]

/-- The lexeme of a word takes its place behind the earlier ones. -/
theorem concat (h : Placed source ps xs word p) (hsource : pieces source = ps ++ qs) (hword : Unbroken word)
    (hne : word ≠ []) (htext : x.text.toList = word) (hposition : x.position = p) :
    Placed source ps (xs ++ [x]) [] (p.advance word.length) := by
  have hstands := h.stands_next hsource htext hposition
  constructor
  · obtain ⟨before, inner, rfl, hinner, _, htexts⟩ := h.begun
    refine ⟨before ++ inner, [], (List.append_nil _).symm, rfl, rfl, ?_⟩
    simp [hinner, htexts, filter_unbroken hword, htext]
  · exact h.row
  · have hcol := rowLength_concat xs x
    rw [hposition, ← String.length_toList, htext] at hcol
    rw [Position.advance, hcol, h.col, Nat.add_assoc]
  · intro y hy
    rcases List.mem_append.mp hy with hy | hy
    · exact (h.precedes y hy).advance _
    · rw [List.mem_singleton.mp hy, hposition]
      exact Position.precedes_advance (List.length_pos_iff.mpr hne)
  · intro earlier y later heq
    rcases List.eq_nil_or_concat later with rfl | ⟨later, z, rfl⟩
    · obtain ⟨rfl, hy⟩ := List.append_inj' heq rfl
      exact (List.cons.inj hy).1 ▸ hstands
    · rw [List.concat_eq_append, ← List.cons_append, ← List.append_assoc] at heq
      exact h.stands earlier y later (List.append_inj' heq rfl).1
  · refine List.pairwise_append.mpr ⟨h.sorted, List.pairwise_singleton _ _, ?_⟩
    intro y hy z hz
    rw [List.mem_singleton.mp hz, hposition]
    exact h.precedes y hy

/-- A word that ends is a lexeme, if there is anything of it. -/
theorem flush (h : Placed source ps xs word p) (dictionary : Dictionary) (hsource : pieces source = ps ++ qs)
    (hword : Unbroken word) :
    Placed source ps (xs ++ placeWords dictionary p (flush word)) [] (p.advance word.length) := by
  by_cases hne : word = []
  · subst hne
    simpa using h
  · simpa [hne, hword.ne_break] using h.concat hsource hword hne String.toList_ofList rfl

end Placed

theorem placeWords_flush (dictionary : Dictionary) (p : Position) (h : Unbroken word) (ws : List (List Char)) :
    placeWords dictionary p (flush word ++ ws) =
      placeWords dictionary p (flush word) ++ placeWords dictionary (p.advance word.length) ws := by
  by_cases hne : word = []
  · simp [hne]
  · simp [hne, h.ne_break]

/-- The rest of the pieces of a text is read, one after the other. -/
theorem placed_gather (dictionary : Dictionary) (h : Placed source ps xs word p) (hsource : pieces source = ps ++ qs)
    (hword : Unbroken word) : ∃ q, Placed source (ps ++ qs) (xs ++ placeWords dictionary p (gather word qs)) [] q := by
  induction qs generalizing ps xs word p with
  | nil =>
    rw [List.append_nil, gather]
    exact ⟨_, h.flush dictionary hsource hword⟩
  | cons piece qs ih =>
    have hproper := proper_of_mem_pieces source piece (by simp [hsource])
    rw [List.append_cons] at hsource ⊢
    have hflush := h.flush dictionary (hsource.trans (List.append_assoc _ _ _)) hword
    cases piece with
    | letter c => exact ih (h.inner rfl) hsource (hword.snoc hproper)
    | blank c =>
      rw [gather, placeWords_flush _ _ hword, ← List.append_assoc]
      exact ih (hflush.blank hproper) hsource unbroken_nil
    | lineBreak cs =>
      rw [gather, placeWords_flush _ _ hword, ← List.append_assoc, placeWords, if_pos rfl]
      exact ih (hflush.lineBreak hproper.2) hsource unbroken_nil
    | sign cs =>
      have hcs : flush cs = [cs] := if_neg hproper.1
      have hrest := placeWords_flush dictionary (p.advance word.length) hproper.2 (gather [] qs)
      rw [hcs, List.singleton_append, ← hcs] at hrest
      rw [gather, placeWords_flush _ _ hword, ← List.append_assoc, hrest, ← List.append_assoc]
      exact ih ((hflush.inner rfl).flush dictionary hsource hproper.2) hsource unbroken_nil

/-- What lies behind the last lexeme lies behind all of them. -/
theorem precedes_endOfInput (hsorted : xs.Pairwise fun x y => x.position.Precedes y.position)
    (htexts : ∀ x ∈ xs, x.text ≠ "") : ∀ x ∈ xs, x.position.Precedes (Lexeme.endOfInput xs.getLast?).position := by
  rcases List.eq_nil_or_concat xs with rfl | ⟨xs, last, rfl⟩
  · nofun
  rw [List.concat_eq_append] at *
  rw [List.getLast?_concat]
  intro x hx
  rcases List.mem_append.mp hx with hx | hx
  · exact ((List.pairwise_append.mp hsorted).2.2 x hx last (List.mem_singleton_self _)).advance _
  · rw [List.mem_singleton.mp hx]
    have hne : last.text.toList ≠ [] := by simpa using htexts last (by simp)
    exact Position.precedes_advance (String.length_toList ▸ List.length_pos_iff.mpr hne)

/-- The row of a lexeme is one more than the line breaks before it, and its column one more than the characters of the
lexemes before it on its row. So the lexemes stand in order, no two of them in one place, and the end of the input lies
behind them all. -/
theorem tokenize_stands (dictionary : Dictionary) (source : String) :
    (∀ earlier x later, tokenize dictionary source = earlier ++ x :: later → Stands source.toList earlier x) ∧
    (tokenize dictionary source).Pairwise (fun x y => x.position.Precedes y.position) ∧
    ((tokenize dictionary source).map (·.position)).Nodup ∧
    ∀ x ∈ tokenize dictionary source,
      x.position.Precedes (Lexeme.endOfInput (tokenize dictionary source).getLast?).position := by
  obtain ⟨_, h⟩ := placed_gather dictionary (Placed.start source.toList) (List.nil_append _).symm unbroken_nil
  rw [List.nil_append, List.nil_append, ← tokenize_eq] at h
  refine ⟨h.stands, h.sorted, ?_, precedes_endOfInput h.sorted fun x hx => text_ne_of_mem_tokenize hx⟩
  exact List.pairwise_map.mpr (h.sorted.imp fun hxy => hxy.ne)

/-- A text in which line breaks of one character and of two stand side by side. -/
def broken : String := "a\n\r\nb:=\r\r\n(c"

theorem tokenize_broken_stands :
    tokenize .builtin broken =
      [⟨"a", .unclassified, ⟨1, 1⟩⟩, ⟨"b", .unclassified, ⟨3, 1⟩⟩] ++
        ⟨":=", .becomes, ⟨3, 2⟩⟩ :: [⟨"(", .parenthesis, ⟨5, 1⟩⟩, ⟨"c", .unclassified, ⟨5, 2⟩⟩] ∧
    Stands broken.toList [⟨"a", .unclassified, ⟨1, 1⟩⟩, ⟨"b", .unclassified, ⟨3, 1⟩⟩] ⟨":=", .becomes, ⟨3, 2⟩⟩ ∧
    Position.Precedes ⟨5, 2⟩ (Lexeme.endOfInput (tokenize .builtin broken).getLast?).position := by
  obtain ⟨hstands, _, _, hend⟩ := tokenize_stands .builtin broken
  have hlexemes : tokenize .builtin broken =
      [⟨"a", .unclassified, ⟨1, 1⟩⟩, ⟨"b", .unclassified, ⟨3, 1⟩⟩] ++
        ⟨":=", .becomes, ⟨3, 2⟩⟩ :: [⟨"(", .parenthesis, ⟨5, 1⟩⟩, ⟨"c", .unclassified, ⟨5, 2⟩⟩] := by decide +kernel
  have hlast : ⟨"c", .unclassified, ⟨5, 2⟩⟩ ∈ tokenize .builtin broken := by simp [hlexemes]
  exact ⟨hlexemes, hstands _ _ _ hlexemes, hend _ hlast⟩

end MiniPascal
