import MiniPascal.Command
import MiniPascal.Dictionary.Builtin
import MiniPascal.Proofs.Output.Numbers
import MiniPascal.Proofs.Text.Printing

/-!
# Reading a listing of lexemes

The columns of a listing are padded and not delimited, but they can be told apart: a number ends where its digits end, no
category outgrows its column, and what is left of a line is the text of the lexeme. So every line gives back its lexeme,
whatever the size of the numbers and whatever the text. No text that has been read from a program has a line feed in it,
so the lines can be told apart as well.

* `readLine?`, `readLine?_line`: a line of a listing.
* `readListing?`, `readListing?_listLexemes`: a listing.
* `readListing?_tokens`: the listing of a program gives back its lexemes.
-/

namespace MiniPascal

variable {cs rest : List Char} {xs : List Lexeme} {x : Lexeme}

/-! ## Columns -/

def skipSpaces (cs : List Char) : List Char :=
  cs.dropWhile (· = ' ')

theorem skipSpaces_replicate (n : Nat) (hcs : cs.head? ≠ some ' ') : skipSpaces (List.replicate n ' ' ++ cs) = cs := by
  have hspaces : ∀ c ∈ List.replicate n ' ', decide (c = ' ') = true := by simp
  rw [skipSpaces, List.dropWhile_append_of_pos hspaces]
  cases cs with
  | nil => rfl
  | cons c cs => exact List.dropWhile_cons_of_neg (by simpa using hcs)

/-- The width of the column of the category. -/
def categoryWidth : Nat := 18

/-- A category as it stands in its column. -/
def Category.column (c : Category) : List Char :=
  (alignLeft categoryWidth c.key).toList

/-- The category that stands in a column. -/
def Category.ofColumn? (column : List Char) : Option Category :=
  let name := String.ofList (skipSpaces column.reverse).reverse
  if name = unclassified.key then some unclassified else ofKey? name

/-- A category begins and ends with a letter, and none outgrows its column. -/
theorem Category.key_shape (c : Category) :
    c.key.toList.head? ≠ some ' ' ∧ c.key.toList.getLast? ≠ some ' ' ∧ 0 < c.key.length ∧ c.key.length ≤ categoryWidth := by
  cases c <;> decide +kernel

theorem Category.column_eq (c : Category) :
    c.column = c.key.toList ++ List.replicate (categoryWidth - c.key.length) ' ' := by
  simp [column, alignLeft, padding]

theorem Category.length_column (c : Category) : c.column.length = categoryWidth := by
  have hlength := c.key_shape.2.2.2
  rw [column_eq, List.length_append, List.length_replicate, String.length_toList]
  omega

/-- A category is read off its column. -/
theorem Category.ofColumn?_column (c : Category) : ofColumn? c.column = some c := by
  have hlast : c.key.toList.reverse.head? ≠ some ' ' := List.head?_reverse ▸ c.key_shape.2.1
  have hname : String.ofList (skipSpaces c.column.reverse).reverse = c.key := by
    rw [column_eq, List.reverse_append, List.reverse_replicate, skipSpaces_replicate _ hlast, List.reverse_reverse,
      String.ofList_toList]
  simp only [ofColumn?, hname]
  split
  case isTrue hkey => rw [key_injective hkey]
  case isFalse hkey =>
    refine ofKey?_key (mem_tabled.mpr ?_)
    rintro rfl
    exact hkey rfl

/-! ## Lines -/

/-- The line that lists a lexeme, without the line feed at its end. -/
def Lexeme.line (x : Lexeme) : List Char :=
  List.replicate (4 - (toString x.position.row).length) ' ' ++ ((toString x.position.row).toList ++ ':' ::
    ((toString x.position.col).toList ++ (List.replicate (4 - (toString x.position.col).length) ' ' ++ ' ' ::
      (x.category.column ++ ' ' :: x.text.toList))))

theorem toList_listing (x : Lexeme) : x.listing.toList = x.line ++ ['\n'] := by
  simp [Lexeme.listing, Lexeme.line, alignRight, alignLeft, padding, Category.column, categoryWidth]

/-- The lexeme that a line lists. -/
def readLine? (line : List Char) : Option Lexeme :=
  match takeNumber? (skipSpaces line) with
  | some (row, ':' :: behindRow) =>
    match takeNumber? behindRow with
    | some (col, behindCol) =>
      (Category.ofColumn? ((skipSpaces behindCol).take categoryWidth)).map fun category =>
        ⟨String.ofList ((skipSpaces behindCol).drop (categoryWidth + 1)), category, ⟨row, col⟩⟩
    | none => none
  | _ => none

/-- The spaces behind the numbers of a line end where the category begins. -/
theorem skipSpaces_column (n : Nat) (c : Category) (rest : List Char) :
    skipSpaces (List.replicate n ' ' ++ ' ' :: (c.column ++ rest)) = c.column ++ rest := by
  have hne : c.key.toList ≠ [] := List.ne_nil_of_length_pos (String.length_toList ▸ c.key_shape.2.2.1)
  have hhead : (c.column ++ rest).head? ≠ some ' ' := by
    rw [Category.column_eq, List.append_assoc, List.head?_append_of_ne_nil _ hne]
    exact c.key_shape.1
  rw [← List.singleton_append, ← List.append_assoc, ← List.replicate_succ', skipSpaces_replicate _ hhead]

/-- Every line gives back its lexeme. -/
theorem readLine?_line (x : Lexeme) : readLine? x.line = some x := by
  obtain ⟨c, digits, hrow, hc⟩ := exists_digit_toString x.position.row
  have hdigit (rest : List Char) : ((toString x.position.row).toList ++ rest).head? ≠ some ' ' := by
    rw [hrow]
    rintro ⟨⟩
    cases hc
  have hcolon (rest : List Char) : Undigited (':' :: rest) := undigited_cons (by decide) rest
  have hspace (n : Nat) (rest : List Char) : Undigited (List.replicate n ' ' ++ ' ' :: rest) := by
    cases n <;> exact undigited_cons (by decide) _
  have htext : (x.category.column ++ ' ' :: x.text.toList).drop (categoryWidth + 1) = x.text.toList := by
    rw [← List.singleton_append, ← List.append_assoc]
    exact List.drop_left' (by simp [x.category.length_column])
  simp only [readLine?, Lexeme.line, skipSpaces_replicate _ (hdigit _), takeNumber?_toString _ (hcolon _),
    takeNumber?_toString _ (hspace _ _), skipSpaces_column]
  rw [List.take_left' x.category.length_column, Category.ofColumn?_column, Option.map_some, htext, String.ofList_toList]

theorem readLine?_comp_line : readLine? ∘ Lexeme.line = some := by
  funext x
  rw [Function.comp_apply, readLine?_line]

theorem lineFeed_not_mem_line (hx : '\n' ∉ x.text.toList) : '\n' ∉ x.line := by
  have hnumber (n : Nat) : '\n' ∉ (toString n).toList := fun hmem => absurd (isDigit_of_mem_toString hmem) (by decide)
  have hcolumn : '\n' ∉ x.category.column := by
    cases x.category <;> decide +kernel
  simp only [Lexeme.line, List.mem_append, List.mem_cons, List.mem_replicate, hnumber, hcolumn, hx]
  simp

/-! ## Listings -/

/-- The lines of a text that ends with a line feed. -/
def linesOf (text : String) : List (List Char) :=
  (text.toList.splitOn '\n').dropLast

/-- The lexemes that a text lists, one on each line. -/
def readListing? (text : String) : Option (List Lexeme) :=
  (linesOf text).mapM readLine?

theorem splitOn_flatMap_lines {lines : List (List Char)} (hlines : ∀ line ∈ lines, '\n' ∉ line) :
    (lines.flatMap (· ++ ['\n'])).splitOn '\n' = lines ++ [[]] := by
  induction lines with
  | nil => rfl
  | cons line lines ih =>
    rw [List.forall_mem_cons] at hlines
    have hline : line.splitOn '\n' = [line] :=
      List.splitOnP_eq_singleton fun c hc => beq_eq_false_iff_ne.mpr fun heq => hlines.1 (heq ▸ hc)
    have hsplit : (line ++ '\n' :: lines.flatMap (· ++ ['\n'])).splitOn '\n' =
        line.splitOn '\n' ++ (lines.flatMap (· ++ ['\n'])).splitOn '\n' :=
      List.splitOnP_append_cons _ _ (beq_self_eq_true '\n')
    rw [List.flatMap_cons, List.append_assoc, List.singleton_append, hsplit, hline, ih hlines.2]
    rfl

/-- A listing has one line for each lexeme. -/
theorem linesOf_listLexemes (hxs : ∀ x ∈ xs, '\n' ∉ x.text.toList) : linesOf (listLexemes xs) = xs.map Lexeme.line := by
  have hlines : ∀ line ∈ xs.map Lexeme.line, '\n' ∉ line :=
    List.forall_mem_map.mpr fun x hx => lineFeed_not_mem_line (hxs x hx)
  have htext : (listLexemes xs).toList = (xs.map Lexeme.line).flatMap (· ++ ['\n']) := by
    simp [listLexemes, List.flatMap_map, toList_listing]
  rw [linesOf, htext, splitOn_flatMap_lines hlines, List.dropLast_concat]

/-- A listing gives back its lexemes. -/
theorem readListing?_listLexemes (hxs : ∀ x ∈ xs, '\n' ∉ x.text.toList) : readListing? (listLexemes xs) = some xs := by
  have hread : xs.mapM some = pure (xs.map id) := List.mapM_pure
  rw [readListing?, linesOf_listLexemes hxs, List.mapM_map, readLine?_comp_line, hread, List.map_id]
  rfl

/-! ## Programs -/

theorem lineFeed_not_mem_tokenize {d : Dictionary} {source : String} (hx : x ∈ tokenize d source) :
    '\n' ∉ x.text.toList :=
  fun hmem => absurd ((isWord_of_mem_tokenize hx).unbroken _ hmem) (by decide)

/-- What is printed where the lexemes of a program are asked for. -/
theorem run_tokens {read : Reader} {path : String} {dictionary? : Option String} {d : Dictionary} {source : String}
    (hd : Dictionary.loadOrBuiltin read dictionary? = .ok d) (hsource : loadText read path = .ok source) :
    (Command.tokens path dictionary?).run read = ⟨0, listLexemes (tokenize d source), ""⟩ := by
  rw [Command.run, Command.result, hd, hsource]
  rfl

/-- The listing of a program has a line for each of its lexemes, in their order, that gives back the text of the lexeme,
its category and its place. So programs with different lexemes never have the same listing. -/
theorem readListing?_tokens {read : Reader} {path : String} {dictionary? : Option String} {d : Dictionary}
    {source : String} (hd : Dictionary.loadOrBuiltin read dictionary? = .ok d)
    (hsource : loadText read path = .ok source) :
    ∃ output, (Command.tokens path dictionary?).run read = ⟨0, output, ""⟩ ∧
      (linesOf output).map readLine? = (tokenize d source).map some ∧
      readListing? output = some (tokenize d source) ∧
      ∀ (read' : Reader) (path' : String) (dictionary?' : Option String) (d' : Dictionary) (source' : String),
        Dictionary.loadOrBuiltin read' dictionary?' = .ok d' → loadText read' path' = .ok source' →
        tokenize d' source' ≠ tokenize d source →
        ((Command.tokens path' dictionary?').run read').output ≠ output := by
  have hread (d : Dictionary) (source : String) :
      readListing? (listLexemes (tokenize d source)) = some (tokenize d source) :=
    readListing?_listLexemes fun x hx => lineFeed_not_mem_tokenize hx
  refine ⟨_, run_tokens hd hsource, ?_, hread d source, ?_⟩
  · rw [linesOf_listLexemes fun x hx => lineFeed_not_mem_tokenize hx, List.map_map, readLine?_comp_line]
  · intro read' path' dictionary?' d' source' hd' hsource' hne heq
    have hsame : listLexemes (tokenize d' source') = listLexemes (tokenize d source) := by
      rw [← heq, run_tokens hd' hsource']
    refine hne (Option.some.inj ?_)
    rw [← hread d' source', hsame, hread d source]

/-- A file with a word that looks like a line of a listing. -/
def oddFile : Reader :=
  fun path => if path = "odd" then .ok "[\r\n:1:1\u2028wtf wtf" else .error .missing

/-- The words of categories do not confuse the reader, nor do colons and numbers in a text. -/
theorem readListing?_oddFile :
    (Dictionary.loadOrBuiltin oddFile none = .ok .builtin ∧ loadText oddFile "odd" = .ok "[\r\n:1:1\u2028wtf wtf") ∧
    ∃ output, (Command.tokens "odd" none).run oddFile = ⟨0, output, ""⟩ ∧
      output = "   1:1    compound open      [\n   2:1    wtf                :1:1\n   2:5    wtf                wtf\n" ++
        "   2:8    wtf                wtf\n" ∧
      readListing? output = some [⟨"[", .compoundOpen, ⟨1, 1⟩⟩, ⟨":1:1", .unclassified, ⟨2, 1⟩⟩,
        ⟨"wtf", .unclassified, ⟨2, 5⟩⟩, ⟨"wtf", .unclassified, ⟨2, 8⟩⟩] := by
  have hloads : Dictionary.loadOrBuiltin oddFile none = .ok .builtin ∧
      loadText oddFile "odd" = .ok "[\r\n:1:1\u2028wtf wtf" := ⟨rfl, by decide +kernel⟩
  obtain ⟨output, hrun, _, hread, _⟩ := readListing?_tokens hloads.1 hloads.2
  have houtput : output = listLexemes (tokenize .builtin "[\r\n:1:1\u2028wtf wtf") :=
    congrArg Outcome.output (hrun.symm.trans (run_tokens hloads.1 hloads.2))
  exact ⟨hloads, output, hrun, houtput.trans (by decide +kernel), hread.trans (by decide +kernel)⟩

end MiniPascal
