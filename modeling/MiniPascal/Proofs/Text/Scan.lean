import MiniPascal.Dictionary.Builtin
import MiniPascal.Proofs.Text.Pieces

/-!
# Reading a text in one pass

The lexemes of a text are told from its characters directly, with no normal form in between: a blank ends a word, an
operator ends it and is a word itself, and any other character is added to it.

* `scan`: the words of a text.
* `scan_eq`: they are those of its pieces, the line breaks left out.
* `tokenize_scans`: the texts and categories of the lexemes of a text.
-/

namespace MiniPascal

variable {cs rest word : List Char} {c d : Char} {ps : List Piece}

/-- The words of a text, read once from left to right; `word` is what has been read of the current one. A blank ends it.
An operator of two characters, or else of one, ends it and is a word. Every other character is added to it. -/
def scan (word : List Char) : List Char → List (List Char)
  | [] => flush word
  | [c] =>
    if isBlank c then flush word
    else if isSign c then flush word ++ [[c]]
    else [word ++ [c]]
  | c :: d :: rest =>
    if isBlank c then flush word ++ scan [] (d :: rest)
    else if isSignPair c d then flush word ++ [c, d] :: scan [] rest
    else if isSign c then flush word ++ [c] :: scan [] (d :: rest)
    else scan (word ++ [c]) (d :: rest)

theorem scan_of_isBlank (h : isBlank c = true) : scan word (c :: rest) = flush word ++ scan [] rest := by
  cases rest <;> simp [scan, h]

theorem scan_of_isSignPair (h : isSignPair c d = true) :
    scan word (c :: d :: rest) = flush word ++ [c, d] :: scan [] rest := by
  simp [scan, (not_isBlank_of_isSignPair h).1, h]

theorem scan_of_isSign (halone : Alone c rest) (h : isSign c = true) :
    scan word (c :: rest) = flush word ++ [c] :: scan [] rest := by
  cases rest with
  | nil =>
    simp [scan, not_isBlank_of_isSign h, h]
  | cons d rest =>
    simp [scan, not_isBlank_of_isSign h, (Piece.pair?_eq_none.mp (halone d rfl)).2, h]

theorem scan_of_letter (halone : Alone c rest) (hblank : isBlank c = false) (hsign : isSign c = false) :
    scan word (c :: rest) = scan (word ++ [c]) rest := by
  cases rest with
  | nil =>
    simp [scan, hblank, hsign]
  | cons d rest =>
    simp [scan, hblank, hsign, (Piece.pair?_eq_none.mp (halone d rfl)).2]

/-! ## The words of the pieces -/

@[simp]
theorem filter_flush (h : Unbroken word) : (flush word).filter (fun w => !decide (w = ['\n'])) = flush word := by
  by_cases hword : word = []
  · simp [hword]
  · simp [hword, h.ne_break]

/-- The words that are read in one pass are those of the pieces, line breaks left out. -/
theorem scan_eq (h : Unbroken word) : scan word cs = (gather word (pieces cs)).filter (· ≠ ['\n']) := by
  induction cs using pieces_induction generalizing word with
  | nil => simp [h, scan, pieces]
  | pair c d piece rest hpair ih =>
    rw [pieces_of_pair? hpair]
    rcases Piece.pair?_cases hpair with ⟨hbreak, rfl⟩ | ⟨_, hsign, rfl⟩
    · -- the pair is one piece, but it is read as two blanks
      obtain ⟨hc, hd⟩ := isBlank_of_isBreakPair hbreak
      simp [scan_of_isBlank hc, scan_of_isBlank hd, ih, h]
    · simp [scan_of_isSignPair hsign, ih, h]
  | single c rest halone ih =>
    rw [pieces_of_alone halone, Piece.single]
    split
    case isTrue hbreak =>
      simp [scan_of_isBlank (isBlank_of_isBreak hbreak), ih, h]
    split
    case isTrue hsign =>
      have hne : c ≠ '\n' := by
        rintro rfl
        exact absurd hsign (by decide)
      simp [scan_of_isSign halone hsign, ih, h, hne]
    split
    case isTrue hblank => simp [scan_of_isBlank hblank, ih, h]
    case isFalse hsign hblank =>
      have hc : isBlank c = false := Bool.eq_false_iff.mpr hblank
      rw [scan_of_letter halone hc (Bool.eq_false_iff.mpr hsign), ih (h.snoc hc), gather]

@[simp]
theorem flatten_flush (word : List Char) : (flush word).flatten = word := by
  by_cases hword : word = [] <;> simp [hword]

theorem filter_unbroken (h : Unbroken word) : word.filter (!isBlank ·) = word :=
  List.filter_eq_self.mpr fun c hc => by rw [h c hc]; rfl

/-- No character is lost but the blanks. -/
theorem flatten_gather (hps : ∀ p ∈ ps, p.Proper) (h : Unbroken word) :
    ((gather word ps).filter (· ≠ ['\n'])).flatten = word ++ (ps.flatMap Piece.chars).filter (!isBlank ·) := by
  induction ps generalizing word with
  | nil => simp [h]
  | cons p ps ih =>
    rw [List.forall_mem_cons] at hps
    obtain ⟨hp, hps⟩ := hps
    have hrest := ih hps unbroken_nil
    cases p with
    | lineBreak cs =>
      have hcs : cs.filter (!isBlank ·) = [] := by simpa using hp.2
      simpa [h, hcs] using hrest
    | blank c =>
      have hc : isBlank c = true := hp
      simpa [h, hc] using hrest
    | sign cs => simpa [h, hp.2.ne_break, filter_unbroken hp.2] using hrest
    | letter c =>
      have hc : isBlank c = false := hp
      simpa [hc] using ih hps (h.snoc hc)

/-! ## Lexemes -/

theorem map_text_placeWords (d : Dictionary) (p : Position) (ws : List (List Char)) :
    (placeWords d p ws).map (·.text) = (ws.filter (· ≠ ['\n'])).map String.ofList := by
  induction ws generalizing p with
  | nil => rfl
  | cons w ws ih =>
    by_cases hw : w = ['\n'] <;> simp [hw, ih]

theorem category_of_mem_placeWords {d : Dictionary} {p : Position} {ws : List (List Char)} {x : Lexeme}
    (hx : x ∈ placeWords d p ws) : x.category = d.classify x.text := by
  induction ws generalizing p with
  | nil => cases hx
  | cons w ws ih =>
    rw [placeWords] at hx
    split at hx
    case isTrue => exact ih hx
    case isFalse =>
      rcases List.mem_cons.mp hx with rfl | hx
      · rfl
      · exact ih hx

/-- Every lexeme of a text has a text of its own. -/
theorem text_ne_of_mem_tokenize {d : Dictionary} {source : String} {x : Lexeme} (hx : x ∈ tokenize d source) :
    x.text ≠ "" := by
  have htext : x.text ∈ (tokenize d source).map (·.text) := List.mem_map_of_mem hx
  rw [tokenize, map_text_placeWords, words] at htext
  obtain ⟨w, hw, htext⟩ := List.mem_map.mp htext
  have hne : w ≠ [] := by simpa using (List.mem_filter.mp (List.mem_filter.mp hw).1).2
  rw [← htext]
  simpa using hne

/-- The lexemes of a text are the words that are read from it in one pass. Together they are the text without its
blanks, none of them is empty, and each is classified by its spelling. -/
theorem tokenize_scans (d : Dictionary) (source : String) :
    (tokenize d source).map (·.text) = (scan [] source.toList).map String.ofList ∧
    (tokenize d source).flatMap (·.text.toList) = source.toList.filter (!isBlank ·) ∧
    ∀ x ∈ tokenize d source, x.text ≠ "" ∧ x.category = d.classify x.text := by
  have htexts : (tokenize d source).map (·.text) = (scan [] source.toList).map String.ofList := by
    rw [tokenize_eq, map_text_placeWords, scan_eq unbroken_nil]
  refine ⟨htexts, ?_, fun x hx => ⟨text_ne_of_mem_tokenize hx, category_of_mem_placeWords hx⟩⟩
  calc (tokenize d source).flatMap (·.text.toList)
      = (((tokenize d source).map (·.text)).map String.toList).flatten := by
        rw [List.map_map, List.flatMap_def]
        rfl
    _ = ((gather [] (pieces source.toList)).filter (· ≠ ['\n'])).flatten := by
        have hid : String.toList ∘ String.ofList = id := funext fun _ => String.toList_ofList
        rw [htexts, scan_eq unbroken_nil, List.map_map, hid, List.map_id]
    _ = source.toList.filter (!isBlank ·) := by
        rw [flatten_gather (proper_of_mem_pieces _) unbroken_nil, chars_pieces, List.nil_append]

theorem tokenize_scans_glued :
    (tokenize .builtin "a<>=b::=1").map (·.text) = ["a", "<>", "=", "b:", ":=", "1"] ∧
      ⟨":=", .becomes, ⟨1, 7⟩⟩ ∈ tokenize .builtin "a<>=b::=1" ∧
      Category.becomes = Dictionary.builtin.classify ":=" := by
  obtain ⟨htexts, _, hcategories⟩ := tokenize_scans .builtin "a<>=b::=1"
  have hmem : ⟨":=", .becomes, ⟨1, 7⟩⟩ ∈ tokenize .builtin "a<>=b::=1" := by decide +kernel
  exact ⟨htexts.trans (by decide +kernel), hmem, (hcategories _ hmem).2⟩

end MiniPascal
