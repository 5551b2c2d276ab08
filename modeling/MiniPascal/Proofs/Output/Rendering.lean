import Mathlib.Data.List.Infix
import Mathlib.Data.List.Nodup
import MiniPascal.Proofs.Output.Numbers
import MiniPascal.Proofs.Renaming.Keywords

/-!
# Reading a diagnostic

The text of a lexeme stands in a written diagnostic as it is, and it may hold quotation marks, line feeds and whole
diagnostics. Still the written form tells which diagnostic it is: the kind and the place are read from the front and the
category from the back, and what is left is the text of the lexeme.

* `EndsAt`, `append_mark_inj`: where a part of a written form ends.
* `DiagnosticKind.isReported`, `isReported_of_analyze`: the kinds of the diagnostics that an analysis reports.
* `eq_of_render_eq`: a written form has one diagnostic.
-/

namespace MiniPascal

variable {cs ds xs ys zs mark : List Char} {k l : DiagnosticKind} {t : ScopeTable} {x : Lexeme} {g : Goal} {halt : Halt}
  {program : List Lexeme}

/-! ## Marks -/

/-- Where a text is read until a mark is met, it is read to its end. -/
def EndsAt (mark cs : List Char) : Prop :=
  ¬ mark <:+: (cs ++ mark).dropLast

instance : Decidable (EndsAt mark cs) :=
  inferInstanceAs (Decidable (¬ _))

/-- A mark that is met no earlier leaves nothing over. -/
theorem eq_nil_of_endsAt (hcs : EndsAt mark (cs ++ zs)) (h : mark ++ xs = zs ++ (mark ++ ys)) : zs = [] := by
  by_contra hne
  have hlength := List.length_pos_iff.mpr hne
  have hearlier : mark <+: (zs ++ mark).dropLast := by
    have hmark : mark <+: zs ++ (mark ++ ys) := ⟨xs, h⟩
    have hshort : (zs ++ mark).dropLast <+: zs ++ (mark ++ ys) := by
      rw [← List.append_assoc]
      exact (List.dropLast_prefix _).trans (List.prefix_append _ _)
    refine List.prefix_of_prefix_length_le hmark hshort ?_
    rw [List.length_dropLast, List.length_append]
    omega
  have hbehind : (cs ++ zs ++ mark).dropLast = cs ++ (zs ++ mark).dropLast := by
    rw [List.append_assoc, List.dropLast_append_of_ne_nil (by simp [hne])]
  refine hcs (hearlier.isInfix.trans ?_)
  rw [hbehind]
  exact (List.suffix_append _ _).isInfix

/-- Equal texts with a mark in them are equal before the mark and behind it. -/
theorem append_mark_inj (hcs : EndsAt mark cs) (hds : EndsAt mark ds) (h : cs ++ (mark ++ xs) = ds ++ (mark ++ ys)) :
    cs = ds ∧ xs = ys := by
  have hbefore : cs = ds := by
    rcases List.append_eq_append_iff.mp h with ⟨zs, rfl, hzs⟩ | ⟨zs, rfl, hzs⟩
    · rw [eq_nil_of_endsAt hds hzs, List.append_nil]
    · rw [eq_nil_of_endsAt hcs hzs, List.append_nil]
  rw [hbefore] at h
  exact ⟨hbefore, List.append_cancel_left (List.append_cancel_left h)⟩

/-! ## Kinds -/

/-- Whether an analysis can report a kind: it awaits only the words of the language. -/
def DiagnosticKind.isReported : DiagnosticKind → Bool
  | .awaitedName word => word ∈ ["begin", "end", "]"]
  | .awaitedWord word => word ∈ ["do", "to", "then", "(", ")", "variable or value"]
  | _ => true

/-- The kinds that an analysis can report. -/
def reportedKinds : List DiagnosticKind :=
  [.missingCommentOpening, .missingCommentClosing, .missingProgram, .unknownDataType, .badVariableName,
    .reservedVariableName, .globalDeclaration, .alreadyDeclared, .undefinedAssignmentTarget, .undefinedVariable,
    .incorrectValueType, .awaitedAppropriation, .unexpectedCompoundEnd, .unexpectedConditional, .unexpectedWord,
    .trailingAfterEnd, .nestingTooDeep] ++ ["begin", "end", "]"].map .awaitedName ++
    ["do", "to", "then", "(", ")", "variable or value"].map .awaitedWord

theorem mem_reportedKinds (hk : k.isReported) : k ∈ reportedKinds := by
  cases k with
  | awaitedName word | awaitedWord word => simpa [DiagnosticKind.isReported, reportedKinds, or_assoc] using hk
  | _ => decide

/-- Different kinds have different wordings. -/
theorem message_inj (hk : k.isReported) (hl : l.isReported) (h : k.message = l.message) : k = l := by
  have hnodup : (reportedKinds.map DiagnosticKind.message).Nodup := by decide +kernel
  exact List.inj_on_of_nodup_map hnodup (mem_reportedKinds hk) (mem_reportedKinds hl) h

/-! ## Where the parts end -/

/-- A literal is given by its characters: no text has to be evaluated. -/
theorem endsAt_ofList (h : EndsAt mark cs) : EndsAt mark (String.ofList cs).toList := by
  rwa [String.toList_ofList]

theorem endsAt_ofList_append (h : EndsAt mark (cs ++ ds)) :
    EndsAt mark (String.ofList cs ++ String.ofList ds).toList := by
  rwa [String.toList_append, String.toList_ofList, String.toList_ofList]

theorem endsAt_reverse_ofList (h : EndsAt mark cs.reverse) : EndsAt mark (String.ofList cs).toList.reverse := by
  rwa [String.toList_ofList]

/-- What stands between the wording of a kind and the place. -/
def placeMark : List Char := [',', ' ', 'A', 't', ':', ' ']

/-- A wording is read up to the mark. Where one wording is the beginning of another, that one does not go on with the
mark. -/
theorem endsAt_message (hk : k.isReported) : EndsAt placeMark k.message.toList := by
  cases k
  case awaitedName word =>
    have hword : word = "begin" ∨ word = "end" ∨ word = "]" := by simpa [DiagnosticKind.isReported] using hk
    rcases hword with rfl | rfl | rfl <;> exact endsAt_ofList_append (by decide)
  case awaitedWord word =>
    have hword : word = "do" ∨ word = "to" ∨ word = "then" ∨ word = "(" ∨ word = ")" ∨ word = "variable or value" := by
      simpa [DiagnosticKind.isReported] using hk
    rcases hword with rfl | rfl | rfl | rfl | rfl | rfl <;> exact endsAt_ofList_append (by decide)
  all_goals exact endsAt_ofList (by decide)

/-- What stands between the text of a lexeme and its category. -/
def categoryMark : List Char := ['"', ' ', 'o', 'f', ' ', 't', 'y', 'p', 'e', ' ', '<']

/-- From the back, a category is read up to the mark. -/
theorem endsAt_key (c : Category) : EndsAt categoryMark.reverse c.key.toList.reverse := by
  cases c <;> exact endsAt_reverse_ofList (by decide)

/-! ## Written forms -/

/-- A written form, part by part. -/
theorem toList_render (d : Diagnostic) :
    d.render.toList = "Error: ".toList ++ (d.kind.message.toList ++ (placeMark ++ ("(row:".toList ++
      ((toString d.lexeme.position.row).toList ++ (',' :: (" col:".toList ++
        ((toString d.lexeme.position.col).toList ++ (')' :: ("\n\tWhile reading ".toList ++ ('"' ::
          (d.lexeme.text.toList ++ (categoryMark ++ (d.lexeme.category.key.toList ++ ['>']))))))))))))) := by
  have hplace : ", At: ".toList = placeMark := String.toList_ofList
  have hcategory : "\" of type <".toList = categoryMark := String.toList_ofList
  have hcol : ", col:".toList = ',' :: " col:".toList := by decide +kernel
  have hself (s : String) : toString s = s := rfl
  simp only [Diagnostic.render, Position.render, Lexeme.render, String.toList_append, List.append_assoc, hself, hplace,
    hcategory, hcol, List.cons_append]
  rfl

/-- The written form of a diagnostic is that of no other one. -/
theorem render_inj {d e : Diagnostic} (hd : d.kind.isReported) (he : e.kind.isReported) (h : d.render = e.render) :
    d = e := by
  obtain ⟨kind, text, category, row, col⟩ := d
  obtain ⟨kind', text', category', row', col'⟩ := e
  have hparts := congrArg String.toList h
  rw [toList_render, toList_render] at hparts
  obtain ⟨hkind, hrow⟩ := append_mark_inj (endsAt_message hd) (endsAt_message he) (List.append_cancel_left hparts)
  obtain ⟨rfl, hcol⟩ := toString_append_inj (undigited_cons (by decide) _) (undigited_cons (by decide) _)
    (List.append_cancel_left hrow)
  obtain ⟨rfl, hlexeme⟩ := toString_append_inj (undigited_cons (by decide) _) (undigited_cons (by decide) _)
    (List.append_cancel_left (List.cons.inj hcol).2)
  have hlexeme := (List.cons.inj (List.append_cancel_left (List.cons.inj hlexeme).2)).2
  -- what is left begins with the text, and turned round it begins with the category
  have hback := congrArg List.reverse hlexeme
  simp only [List.reverse_append, List.append_assoc] at hback
  obtain ⟨hkey, htext⟩ := append_mark_inj (endsAt_key category) (endsAt_key category') (List.append_cancel_left hback)
  obtain rfl : kind = kind' := message_inj hd he (String.toList_inj.mp hkind)
  obtain rfl : category = category' := Category.key_injective (String.toList_inj.mp (List.reverse_inj.mp hkey))
  obtain rfl : text = text' := String.toList_inj.mp (List.reverse_inj.mp htext)
  rfl

/-! ## Reports -/

theorem isReported_of_awaits {category : Category} {text : String} (hg : (Goal.word category text).Awaits) :
    (DiagnosticKind.awaitedWord text).isReported := by
  simp only [Goal.Awaits, awaitedWords, List.mem_cons, Word.mk.injEq, List.not_mem_nil, or_false] at hg
  rcases hg with ⟨_, rfl⟩ | ⟨_, rfl⟩ | ⟨_, rfl⟩ | ⟨_, rfl⟩ | ⟨_, rfl⟩ <;> rfl

theorem isReported_of_refuses (hg : g.Awaits) (h : g.Refuses t x k) : k.isReported := by
  cases h with
  | word => exact isReported_of_awaits hg
  | variableName hn => cases hn <;> rfl
  | operator hb | moreStatements _ hb => cases hb <;> rfl
  | term ho | operand ho => cases ho <;> rfl
  | _ => rfl

theorem isReported_of_lacks (hg : g.Awaits) (h : g.Lacks t k) : k.isReported := by
  cases h with
  | word => exact isReported_of_awaits hg
  | _ => rfl

/-- A breach that a step meets. -/
theorem isReported_of_step {s : State} (hs : ∀ g ∈ s.goals, g.Awaits) (h : s.step x = .error halt) :
    halt.kind.isReported := by
  cases halting_of_step h with
  | full | stray | late => rfl
  | @goal _ _ _ _ g _ _ hgoals _ hg =>
    rcases refuses_of_onLexeme hg with ⟨_, hrefuses⟩ | ⟨_, _, hk⟩
    · exact isReported_of_refuses (hs g (by simp [hgoals])) hrefuses
    · rw [hk]
      rfl

/-- A breach that is met at the end of the input. -/
theorem isReported_of_finish {s : State} (hs : ∀ g ∈ s.goals, g.Awaits) (h : s.finish = some halt) :
    halt.kind.isReported := by
  unfold State.finish at h
  split at h
  · cases h
    rfl
  · obtain ⟨_, g, _, hgoals, _, hg⟩ := complaint_eq_some h
    rcases lacks_of_onEnd hg with ⟨_, hlacks⟩ | ⟨_, _, hk⟩
    · exact isReported_of_lacks (hs g (by simp [hgoals])) hlacks
    · rw [hk]
      rfl

theorem isReported_of_analyze {d : Diagnostic} (h : (analyze program).diagnostic? = some d) : d.kind.isReported := by
  rw [diagnostic?_analyze] at h
  obtain ⟨halt, hbreach, rfl⟩ := Option.map_eq_some_iff.mp h
  rcases breach?_eq_some hbreach with ⟨i, x, s, hx, hs, hstep⟩ | ⟨s, hs, hfinish⟩
  · have hi := Nat.le_of_lt (List.getElem?_eq_some_iff.mp hx).1
    exact isReported_of_step (awaits_of_reaches hi hs) hstep
  · exact isReported_of_finish (awaits_of_reaches (Nat.le_refl _) hs) hfinish

/-- An analysis reports diagnostics of certain kinds, and the written form of a diagnostic of one of them is that of no
other one: it tells the kind, and of the lexeme its text, its category and its place. -/
theorem eq_of_render_eq :
    (∀ (program : List Lexeme) (d : Diagnostic), (analyze program).diagnostic? = some d → d.kind.isReported) ∧
    ∀ d e : Diagnostic, d.kind.isReported → e.kind.isReported → d.render = e.render → d = e :=
  ⟨fun _ _ h => isReported_of_analyze h, fun _ _ hd he h => render_inj hd he h⟩

/-- A program whose only lexeme looks like the end of one diagnostic and the beginning of another one. -/
def quoting : List Lexeme :=
  [⟨"\" of type <wtf>\nError: Unexpected word, At: (row:1, col:1)\n\tWhile reading \"x", .unclassified, ⟨12, 3⟩⟩]

theorem eq_of_render_eq_quoting :
    (analyze quoting).diagnostic? = some ⟨.missingProgram, lexemeAt quoting 0⟩ ∧
    DiagnosticKind.missingProgram.isReported ∧
    ∀ e : Diagnostic, e.kind.isReported → e.render = "Error: Missing program initialization, At: (row:12, col:3)\n\tWhile " ++
      "reading \"\" of type <wtf>\nError: Unexpected word, At: (row:1, col:1)\n\tWhile reading \"x\" of type <wtf>" →
      e = ⟨.missingProgram, lexemeAt quoting 0⟩ := by
  have hreport : (analyze quoting).diagnostic? = some ⟨.missingProgram, lexemeAt quoting 0⟩ := by decide +kernel
  have hreported := eq_of_render_eq.1 quoting _ hreport
  refine ⟨hreport, hreported, fun e he hrender => ?_⟩
  refine eq_of_render_eq.2 e _ he hreported (hrender.trans ?_)
  decide +kernel

end MiniPascal
