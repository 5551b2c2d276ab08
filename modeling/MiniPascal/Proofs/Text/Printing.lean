import Mathlib.Data.List.Basic
import MiniPascal.Dictionary.Builtin
import MiniPascal.Proofs.Text.Lines

/-!
# Lexemes written out

Lexemes are written out row by row, with single spaces between those of a row. Read again, the text gives back the
lexemes and their places: a word that has been read from some text is read from itself, and where it stands depends on
the words before it on its row and on the rows above, not on the blanks between them.

* `printed`: lexemes written out.
* `isWord_of_mem_tokenize`: the text of a lexeme is a word, whatever stood around it.
* `wordsAndBreaks_printed`: the words of the written text, row by row.
* `placeWords_layout`: words take the same places again when their rows are laid out anew.
* `tokenize_printed`: the lexemes of a text are those of the text in which they are written out.
-/

namespace MiniPascal

variable {source cs word : List Char} {ps qs rs : List Piece} {ws : List (List Char)} {xs : List Lexeme} {x : Lexeme}
  {row n : Nat}

/-! ## Writing -/

/-- The texts of the lexemes of a row, a space between two of them. -/
def rowText (xs : List Lexeme) (row : Nat) : String :=
  " ".intercalate ((xs.filter (·.position.row = row)).map (·.text))

/-- The last row that has a lexeme on it, 0 if there is none. -/
def lastRow (xs : List Lexeme) : Nat :=
  (xs.map (·.position.row)).foldr max 0

/-- Lexemes written out from the first row to the last one that has any, a line feed between two rows. -/
def printed (xs : List Lexeme) : String :=
  "\n".intercalate ((List.range' 1 (lastRow xs)).map (rowText xs))

theorem le_lastRow (hx : x ∈ xs) : x.position.row ≤ lastRow xs := by
  induction xs with
  | nil => cases hx
  | cons y xs ih =>
    rcases List.mem_cons.mp hx with rfl | hx
    · exact Nat.le_max_left _ _
    · exact Nat.le_trans (ih hx) (Nat.le_max_right _ _)

/-! ## Words that stand for themselves -/

/-- A word is read from itself as one word. -/
structure IsWord (word : List Char) : Prop where
  unbroken : Unbroken word
  alone : wordsAndBreaks word = [word]

/-- What stands before some of the pieces of a text has no part in them. -/
theorem pieces_of_append_right (h : pieces cs = ps ++ qs) : pieces (qs.flatMap Piece.chars) = qs := by
  induction cs using pieces_induction generalizing ps with
  | nil =>
    obtain ⟨_, rfl⟩ := List.append_eq_nil_iff.mp h.symm
    rfl
  | pair c d piece rest hpair ih =>
    cases ps with
    | nil => rw [← List.nil_append qs, ← h, chars_pieces]
    | cons p ps =>
      rw [pieces_of_pair? hpair] at h
      exact ih (List.cons.inj h).2
  | single c rest halone ih =>
    cases ps with
    | nil => rw [← List.nil_append qs, ← h, chars_pieces]
    | cons p ps =>
      rw [pieces_of_alone halone] at h
      exact ih (List.cons.inj h).2

/-- Some of the pieces of a text are read alone as they are read in the text. -/
theorem wordsAndBreaks_of_infix (h : pieces cs = ps ++ qs ++ rs) :
    wordsAndBreaks (qs.flatMap Piece.chars) = gather [] qs := by
  rw [List.append_assoc] at h
  rw [wordsAndBreaks, pieces_of_append (pieces_of_append_right h)]

theorem gather_letters (word letters : List Char) :
    gather word (letters.map Piece.letter) = flush (word ++ letters) := by
  induction letters generalizing word with
  | nil => simp
  | cons c letters ih => simp [ih]

theorem flatMap_chars_letters (letters : List Char) :
    (letters.map Piece.letter).flatMap Piece.chars = letters := by
  induction letters with
  | nil => rfl
  | cons c letters ih => simp [ih]

/-- The letters of a text with no other pieces between them are a word. -/
theorem isWord_of_mem_flush (hsource : pieces source = ps ++ word.map Piece.letter ++ qs) (hword : Unbroken word)
    {w : List Char} (hw : w ∈ flush word) : IsWord w := by
  have halone := wordsAndBreaks_of_infix hsource
  rw [flatMap_chars_letters, gather_letters, List.nil_append] at halone
  by_cases hne : word = []
  · simp [hne] at hw
  · rw [flush_of_ne hne] at hw halone
    obtain rfl := List.mem_singleton.mp hw
    exact ⟨hword, halone⟩

/-- The words that are put together from the pieces of a text are read from themselves; `word` is what has been read of
one of them. -/
theorem isWord_of_mem_gather (hsource : pieces source = ps ++ word.map Piece.letter ++ qs) (hword : Unbroken word) :
    ∀ w ∈ gather word qs, w = ['\n'] ∨ IsWord w := by
  induction qs generalizing ps word with
  | nil => exact fun w hw => .inr (isWord_of_mem_flush hsource hword hw)
  | cons piece qs ih =>
    have hproper := proper_of_mem_pieces source piece (by simp [hsource])
    have hflush : ∀ w ∈ flush word, w = ['\n'] ∨ IsWord w :=
      fun w hw => .inr (isWord_of_mem_flush hsource hword hw)
    have hnext : pieces source = (ps ++ word.map Piece.letter ++ [piece]) ++ ([] : List Char).map Piece.letter ++ qs := by
      simp [hsource]
    have hrest := ih hnext unbroken_nil
    cases piece with
    | letter c =>
      have hletter : pieces source = ps ++ (word ++ [c]).map Piece.letter ++ qs := by simp [hsource]
      exact ih hletter (hword.snoc hproper)
    | blank c =>
      rw [gather, List.forall_mem_append]
      exact ⟨hflush, hrest⟩
    | lineBreak cs =>
      rw [gather, List.forall_mem_append, List.forall_mem_cons]
      exact ⟨hflush, .inl rfl, hrest⟩
    | sign cs =>
      have halone : wordsAndBreaks cs = [cs] := by
        have hinfix : pieces source = (ps ++ word.map Piece.letter) ++ [.sign cs] ++ qs := by simp [hsource]
        have hread := wordsAndBreaks_of_infix hinfix
        rwa [List.flatMap_singleton] at hread
      rw [gather, List.forall_mem_append, List.forall_mem_cons]
      exact ⟨hflush, .inr ⟨hproper.2, halone⟩, hrest⟩

/-- The text of a lexeme is a word, whatever stood around it. -/
theorem isWord_of_mem_tokenize {d : Dictionary} {source : String} (hx : x ∈ tokenize d source) :
    IsWord x.text.toList := by
  have htext : x.text ∈ (tokenize d source).map (·.text) := List.mem_map_of_mem hx
  rw [tokenize_eq, map_text_placeWords] at htext
  obtain ⟨w, hw, htext⟩ := List.mem_map.mp htext
  obtain ⟨hmem, hne⟩ := List.mem_filter.mp hw
  have hsource : pieces source.toList = [] ++ ([] : List Char).map Piece.letter ++ pieces source.toList := rfl
  rw [← htext, String.toList_ofList]
  rcases isWord_of_mem_gather hsource unbroken_nil w hmem with rfl | hword
  · simp at hne
  · exact hword

/-! ## The words of the written text -/

theorem not_mem_intercalate {α : Type} {a : α} {separator : List α} {parts : List (List α)} (hs : a ∉ separator)
    (hparts : ∀ part ∈ parts, a ∉ part) : a ∉ separator.intercalate parts := by
  induction parts with
  | nil => simp
  | cons part parts ih =>
    rw [List.forall_mem_cons] at hparts
    by_cases hne : parts = []
    · rw [hne, List.intercalate_singleton]
      exact hparts.1
    · rw [List.intercalate_cons_of_ne_nil hne]
      simp [hs, hparts.1, ih hparts.2]

/-- Words with single spaces between them. -/
theorem wordsAndBreaks_intercalate_space (hws : ∀ w ∈ ws, IsWord w) : wordsAndBreaks ([' '].intercalate ws) = ws := by
  induction ws with
  | nil => rfl
  | cons w ws ih =>
    rw [List.forall_mem_cons] at hws
    by_cases hne : ws = []
    · rw [hne, List.intercalate_singleton]
      exact hws.1.alone
    · rw [List.intercalate_cons_of_ne_nil hne, List.append_assoc, List.singleton_append, wordsAndBreaks_space,
        hws.1.alone, ih hws.2, List.singleton_append]

/-- Texts with single line feeds between them. -/
theorem wordsAndBreaks_intercalate_lineBreak {lines : List (List Char)} (hlines : ∀ line ∈ lines, '\r' ∉ line) :
    wordsAndBreaks (['\n'].intercalate lines) = [['\n']].intercalate (lines.map wordsAndBreaks) := by
  induction lines with
  | nil => rfl
  | cons line lines ih =>
    rw [List.forall_mem_cons] at hlines
    by_cases hne : lines = []
    · rw [hne, List.map_singleton, List.intercalate_singleton, List.intercalate_singleton]
    · have hbehind : '\r' ∉ ['\n'].intercalate lines := not_mem_intercalate (by decide) hlines.2
      rw [List.map_cons, List.intercalate_cons_of_ne_nil hne, List.intercalate_cons_of_ne_nil (by simpa using hne),
        List.append_assoc, List.singleton_append, wordsAndBreaks_lineBreak, ih hlines.2, List.append_assoc,
        List.singleton_append]
      · exact fun hlast => hlines.1 (List.mem_of_getLast? hlast)
      · exact fun hhead => hbehind (List.mem_of_head? hhead)

/-- The words of the lexemes of a row. -/
def rowWords (xs : List Lexeme) (row : Nat) : List (List Char) :=
  (xs.filter (·.position.row = row)).map (·.text.toList)

theorem toList_rowText (xs : List Lexeme) (row : Nat) :
    (rowText xs row).toList = [' '].intercalate (rowWords xs row) := by
  rw [rowText, String.toList_intercalate, List.map_map]
  rfl

theorem isWord_of_mem_rowWords (hxs : ∀ x ∈ xs, IsWord x.text.toList) : ∀ w ∈ rowWords xs row, IsWord w := by
  intro w hw
  obtain ⟨x, hx, rfl⟩ := List.mem_map.mp hw
  exact hxs x (List.mem_filter.mp hx).1

/-- The words of the written text are those of its rows with a line break between two of them. -/
theorem wordsAndBreaks_printed (hxs : ∀ x ∈ xs, IsWord x.text.toList) :
    wordsAndBreaks (printed xs).toList = [['\n']].intercalate ((List.range' 1 (lastRow xs)).map (rowWords xs)) := by
  have hrow (row : Nat) : wordsAndBreaks (rowText xs row).toList = rowWords xs row := by
    rw [toList_rowText, wordsAndBreaks_intercalate_space (isWord_of_mem_rowWords hxs)]
  have hreturn (row : Nat) : '\r' ∉ (rowText xs row).toList := by
    rw [toList_rowText]
    refine not_mem_intercalate (by decide) fun w hw hmem => ?_
    exact absurd ((isWord_of_mem_rowWords hxs w hw).unbroken _ hmem) (by decide)
  have htext : (printed xs).toList =
      ['\n'].intercalate ((List.range' 1 (lastRow xs)).map fun row => (rowText xs row).toList) := by
    rw [printed, String.toList_intercalate, List.map_map]
    rfl
  rw [htext, wordsAndBreaks_intercalate_lineBreak (List.forall_mem_map.mpr fun row _ => hreturn row), List.map_map]
  congr 1
  exact List.map_congr_left fun row _ => hrow row

/-! ## The places of the words -/

/-- The words of `n` rows from a row on, a line break behind each row. -/
def layout (xs : List Lexeme) (row n : Nat) : List (List Char) :=
  (List.range' row n).flatMap fun r => rowWords xs r ++ [['\n']]

/-- A line break behind the last row makes no difference. -/
theorem placeWords_intercalate (d : Dictionary) (p : Position) (rows : List (List (List Char))) :
    placeWords d p ([['\n']].intercalate rows) = placeWords d p (rows.flatMap (· ++ [['\n']])) := by
  induction rows generalizing p with
  | nil => rfl
  | cons row rows ih =>
    rw [List.flatMap_cons, List.append_assoc, List.singleton_append, placeWords_lineBreak, ← ih]
    by_cases hne : rows = []
    · rw [hne, List.intercalate_singleton, List.intercalate_nil, placeWords, List.append_nil]
    · rw [List.intercalate_cons_of_ne_nil hne, List.append_assoc, List.singleton_append, placeWords_lineBreak]

theorem row_le_of_mem_placeWords {d : Dictionary} {p : Position} (hx : x ∈ placeWords d p ws) :
    p.row ≤ x.position.row := by
  induction ws generalizing p with
  | nil => cases hx
  | cons w ws ih =>
    rw [placeWords] at hx
    split at hx
    case isTrue => exact Nat.le_of_succ_le (ih hx)
    case isFalse =>
      rcases List.mem_cons.mp hx with rfl | hx
      · exact Nat.le_refl _
      · have hrow : (p.advance w.length).row ≤ x.position.row := ih hx
        exact hrow

/-- A lexeme of the first row comes before the others. -/
theorem layout_cons (hx : x.position.row = row) :
    layout (x :: xs) row (n + 1) = x.text.toList :: layout xs row (n + 1) := by
  have hhere : rowWords (x :: xs) row = x.text.toList :: rowWords xs row := by simp [rowWords, hx]
  have hbelow : ∀ r ∈ List.range' (row + 1) n, rowWords (x :: xs) r ++ [['\n']] = rowWords xs r ++ [['\n']] := by
    intro r hr
    have hne : x.position.row ≠ r := by
      have := (List.mem_range'_1.mp hr).1
      omega
    simp [rowWords, hne]
  rw [layout, layout, List.range'_succ, List.flatMap_cons, List.flatMap_cons, hhere, List.flatMap_congr hbelow]
  rfl

/-- A row without lexemes is a line break. -/
theorem layout_of_lt (hxs : ∀ x ∈ xs, row < x.position.row) : layout xs row (n + 1) = ['\n'] :: layout xs (row + 1) n := by
  have hnone : rowWords xs row = [] := by
    rw [rowWords, List.map_eq_nil_iff, List.filter_eq_nil_iff]
    intro x hx
    have := hxs x hx
    simp only [decide_eq_true_eq]
    omega
  rw [layout, List.range'_succ, List.flatMap_cons, hnone]
  rfl

theorem placeWords_layout_nil (d : Dictionary) (p : Position) (row n : Nat) : placeWords d p (layout [] row n) = [] := by
  induction n generalizing p row with
  | zero => rfl
  | succ n ih => rw [layout_of_lt (by simp), placeWords, if_pos rfl, ih]

/-- Words that have taken their places take them again where the rows are laid out anew. -/
theorem placeWords_layout (d : Dictionary) (p : Position) (ws : List (List Char)) (n : Nat)
    (hn : ∀ x ∈ placeWords d p ws, x.position.row < p.row + n) :
    placeWords d p (layout (placeWords d p ws) p.row n) = placeWords d p ws := by
  induction ws generalizing p n with
  | nil => exact placeWords_layout_nil d p p.row n
  | cons w ws ih =>
    by_cases hw : w = ['\n']
    · rw [placeWords, if_pos hw] at hn ⊢
      have hbelow : ∀ x ∈ placeWords d p.nextRow ws, p.row < x.position.row := fun x hx => row_le_of_mem_placeWords hx
      cases n with
      | zero =>
        have hnil : placeWords d p.nextRow ws = [] := List.eq_nil_iff_forall_not_mem.mpr fun x hx => by
          have := hn x hx
          have := hbelow x hx
          omega
        rw [hnil]
        rfl
      | succ n =>
        have hn' : ∀ x ∈ placeWords d p.nextRow ws, x.position.row < p.nextRow.row + n := by
          intro x hx
          have := hn x hx
          have hnext : p.nextRow.row = p.row + 1 := rfl
          omega
        rw [layout_of_lt hbelow, placeWords, if_pos rfl]
        exact ih p.nextRow n hn'
    · rw [placeWords, if_neg hw] at hn ⊢
      rw [List.forall_mem_cons] at hn
      obtain ⟨hp, hn⟩ := hn
      cases n with
      | zero => simp at hp
      | succ n =>
        rw [layout_cons rfl, String.toList_ofList, placeWords, if_neg hw]
        exact congrArg _ (ih (p.advance w.length) (n + 1) hn)

/-! ## Reading again -/

/-- The text in which the lexemes of a text are written out has the same lexemes, in the same places. -/
theorem tokenize_printed (d : Dictionary) (source : String) :
    tokenize d (printed (tokenize d source)) = tokenize d source := by
  have hwords : ∀ x ∈ tokenize d source, IsWord x.text.toList := fun x hx => isWord_of_mem_tokenize hx
  have hrows : ∀ x ∈ tokenize d source, x.position.row < Position.start.row + lastRow (tokenize d source) := by
    intro x hx
    have := le_lastRow hx
    have hstart : Position.start.row = 1 := rfl
    omega
  have hlayout : placeWords d .start (layout (tokenize d source) 1 (lastRow (tokenize d source))) = tokenize d source :=
    placeWords_layout d .start (words (normalize source).toList) _ hrows
  rw [tokenize_eq, ← wordsAndBreaks, wordsAndBreaks_printed hwords, placeWords_intercalate, List.flatMap_map]
  exact hlayout

example : printed (tokenize .builtin "\r\n a:  =b\n\n\tc:=:d ") = "\na: = b\n\nc := :d" := by decide +kernel

end MiniPascal
