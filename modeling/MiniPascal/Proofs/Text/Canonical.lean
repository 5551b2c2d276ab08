import MiniPascal.Proofs.Text.Lines

/-!
# The normal form of a text

Setting operators and line breaks apart adds spaces only, and of a run of spaces one is left. So a text that is normal
already is left as it is: a space divides what is set apart behind it from what stands before it, and the spaces that are
added beside those of the text are run together with them.

* `squeeze_congr`: what is left of the spaces does not depend on how many there are.
* `squeeze_spread_squeeze`, `squeeze_spread_spread`: neither half of the normal form minds that the other, or it itself, has
  been at work.
* `BreaksApart`, `breaksApart_spread`, `BreaksApart.squeeze`: every line break stands between spaces.
* `normalize_canonical`: the shape of the normal form, and what comes of normalizing it once more.
-/

namespace MiniPascal

variable {cs ds rest before behind : List Char} {c d : Char} {piece : Piece} {ps : List Piece}

/-! ## Runs of spaces -/

/-- A character that does not begin a run of spaces stays. -/
theorem squeeze_cons (h : ∀ more, c = ' ' → rest = ' ' :: more → False) : squeeze (c :: rest) = c :: squeeze rest :=
  squeeze.eq_2 c rest h

theorem squeeze_append_spaces (cs rest : List Char) : squeeze (cs ++ ' ' :: ' ' :: rest) = squeeze (cs ++ ' ' :: rest) := by
  induction cs using squeeze.induct with
  | case1 cs ih => exact ih
  | case2 c cs hne ih =>
    by_cases hspace : c = ' ' ∧ cs = []
    · obtain ⟨rfl, rfl⟩ := hspace
      rfl
    · have hstays (zs : List Char) : squeeze (c :: (cs ++ ' ' :: zs)) = c :: squeeze (cs ++ ' ' :: zs) := by
        refine squeeze_cons fun zs' hc hzs => ?_
        cases cs with
        | nil => exact hspace ⟨hc, rfl⟩
        | cons d cs => exact hne cs hc (by rw [(List.cons.inj hzs).1])
      rw [List.cons_append, List.cons_append, hstays, hstays, ih]
  | case3 => rfl

/-- Spaces that are run together first are run together all the same. -/
theorem squeeze_append_squeeze (cs rest : List Char) : squeeze (cs ++ squeeze rest) = squeeze (cs ++ rest) := by
  induction rest using squeeze.induct generalizing cs with
  | case1 rest ih => rw [squeeze, ih, squeeze_append_spaces]
  | case2 c rest hne ih =>
    have hrest := ih (cs ++ [c])
    rw [List.append_assoc, List.append_assoc] at hrest
    rw [squeeze_cons hne]
    exact hrest
  | case3 => rfl

theorem squeeze_congr (h : squeeze ds = squeeze rest) (cs : List Char) : squeeze (cs ++ ds) = squeeze (cs ++ rest) := by
  rw [← squeeze_append_squeeze, h, squeeze_append_squeeze]

theorem head?_squeeze (cs : List Char) : (squeeze cs).head? = cs.head? := by
  induction cs using squeeze.induct with
  | case1 rest ih => exact ih
  | case2 c rest hne ih => rw [squeeze_cons hne, List.head?_cons, List.head?_cons]
  | case3 => rfl

theorem getLast?_squeeze (cs : List Char) : (squeeze cs).getLast? = cs.getLast? := by
  induction cs using squeeze.induct with
  | case1 rest ih => rw [squeeze, ih, List.getLast?_cons_cons]
  | case2 c rest hne ih => rw [squeeze_cons hne, List.getLast?_cons, List.getLast?_cons, ih]
  | case3 => rfl

theorem squeeze_sublist (cs : List Char) : (squeeze cs).Sublist cs := by
  induction cs using squeeze.induct with
  | case1 rest ih => exact ih.cons _
  | case2 c rest hne ih =>
    rw [squeeze_cons hne]
    exact ih.cons_cons c
  | case3 => exact .slnil

/-- No two spaces are left side by side. -/
theorem not_spaces_infix_squeeze (cs : List Char) : ¬[' ', ' '] <:+: squeeze cs := by
  induction cs using squeeze.induct with
  | case1 rest ih => exact ih
  | case2 c rest hne ih =>
    rw [squeeze_cons hne, List.infix_cons_iff, not_or]
    refine ⟨fun hprefix => ?_, ih⟩
    obtain ⟨hc, more, hmore⟩ := List.cons_prefix_cons.mp hprefix
    have hhead : rest.head? = some ' ' := by rw [← head?_squeeze, ← hmore]; rfl
    obtain ⟨rest', rfl⟩ := List.head?_eq_some_iff.mp hhead
    exact hne rest' hc.symm rfl
  | case3 => simp [squeeze]

/-- A character that is left, other than a space, stood in the text, with the same on both sides of it but for spaces. -/
theorem exists_of_squeeze_eq (hc : c ≠ ' ') (h : squeeze cs = before ++ c :: behind) :
    ∃ before' behind', cs = before' ++ c :: behind' ∧ squeeze before' = before ∧ squeeze behind' = behind := by
  induction cs using squeeze.induct generalizing before with
  | case1 rest ih =>
    obtain ⟨before', behind', hrest, hbefore, hbehind⟩ := ih h
    cases before' with
    | nil => exact absurd (List.cons.inj hrest).1.symm hc
    | cons d before' =>
      obtain ⟨rfl, rfl⟩ := List.cons.inj hrest
      exact ⟨' ' :: ' ' :: before', behind', rfl, hbefore, hbehind⟩
  | case2 d rest hne ih =>
    rw [squeeze_cons hne] at h
    cases before with
    | nil =>
      obtain ⟨rfl, hrest⟩ := List.cons.inj h
      exact ⟨[], rest, rfl, rfl, hrest⟩
    | cons d' before =>
      obtain ⟨rfl, hrest⟩ := List.cons.inj h
      obtain ⟨before', behind', rfl, hbefore, hbehind⟩ := ih hrest
      refine ⟨d :: before', behind', rfl, ?_, hbehind⟩
      rw [squeeze_cons, hbefore]
      rintro more hd rfl
      exact hne _ hd rfl
  | case3 => simp [squeeze] at h

/-! ## Setting apart -/

/-- A space divides what is set apart before it from what is set apart behind it. -/
theorem spread_append_space (cs rest : List Char) : spread (cs ++ ' ' :: rest) = spread cs ++ ' ' :: spread rest := by
  have hpieces : pieces (cs ++ ' ' :: rest) = pieces cs ++ .blank ' ' :: pieces rest :=
    pieces_append_cons (fun _ b _ => pair?_space_right b) fun d _ => pair?_space_left d
  rw [spread_eq, hpieces, List.flatMap_append, List.flatMap_cons, ← spread_eq, ← spread_eq]
  rfl

/-- The spaces of a text may be run together before operators are set apart. -/
theorem squeeze_spread_squeeze (cs rest : List Char) :
    squeeze (spread (cs ++ squeeze rest)) = squeeze (spread (cs ++ rest)) := by
  induction rest using squeeze.induct generalizing cs with
  | case1 rest ih =>
    rw [squeeze, ih, spread_append_space, spread_append_space, ← List.nil_append (' ' :: rest), spread_append_space]
    exact (squeeze_append_spaces _ _).symm
  | case2 c rest hne ih =>
    have hrest := ih (cs ++ [c])
    rw [List.append_assoc, List.append_assoc] at hrest
    rw [squeeze_cons hne]
    exact hrest
  | case3 => rfl

theorem spreadOne_cases (c : Char) :
    spreadOne c = spacedBreak ∨ spreadOne c = ' ' :: ([c] ++ [' ']) ∨ spreadOne c = [' '] ∨ spreadOne c = [c] := by
  unfold spreadOne
  repeat' split
  all_goals simp

theorem spread_of_pair? (h : Piece.pair? c d = some piece) (rest : List Char) :
    spread (c :: d :: rest) = piece.spread ++ spread rest := by
  rw [spread_eq, pieces_of_pair? h, List.flatMap_cons, ← spread_eq]

theorem spread_of_alone (h : Alone c rest) : spread (c :: rest) = spreadOne c ++ spread rest := by
  rw [spread_eq, pieces_of_alone h, List.flatMap_cons, ← spread_eq, Piece.spread_single]

/-- What is set apart begins with a space, or as the text does. -/
theorem head?_spread (cs : List Char) : ∀ d ∈ (spread cs).head?, d = ' ' ∨ d ∈ cs.head? := by
  induction cs using pieces_induction with
  | nil => nofun
  | pair c d piece rest h _ =>
    rw [spread_of_pair? h]
    rcases Piece.pair?_cases h with ⟨_, rfl⟩ | ⟨_, _, rfl⟩ <;> exact fun _ hd => .inl (Option.some.inj hd).symm
  | single c rest h _ =>
    rw [spread_of_alone h]
    rcases spreadOne_cases c with hone | hone | hone | hone <;> rw [hone]
    case inr.inr.inr => exact fun _ hd => .inr hd
    all_goals exact fun _ hd => .inl (Option.some.inj hd).symm

/-- What is set apart already is only set further apart. -/
theorem squeeze_spread_apart (word : List Char) (hword : spread word = ' ' :: (word ++ [' ']))
    (hds : squeeze (spread ds) = squeeze ds) :
    squeeze (spread (' ' :: (word ++ ' ' :: ds))) = squeeze (' ' :: (word ++ ' ' :: ds)) := by
  calc squeeze (spread (' ' :: (word ++ ' ' :: ds)))
      = squeeze (' ' :: ' ' :: (word ++ ' ' :: ' ' :: spread ds)) := by
        rw [← List.nil_append (' ' :: (word ++ ' ' :: ds)), spread_append_space, spread_append_space, hword]
        simp [spread]
    _ = squeeze ((' ' :: word) ++ ' ' :: spread ds) := squeeze_append_spaces (' ' :: word) _
    _ = squeeze (' ' :: (word ++ ' ' :: ds)) := by
        have happend (zs : List Char) : (' ' :: word) ++ ' ' :: zs = (' ' :: word ++ [' ']) ++ zs := by simp
        rw [happend, squeeze_congr hds, ← happend]
        rfl

/-- Operators that stand apart are not set apart again. -/
theorem squeeze_spread_spread (cs : List Char) : squeeze (spread (spread cs)) = squeeze (spread cs) := by
  induction cs using pieces_induction with
  | nil => rfl
  | pair c d piece rest h ih =>
    have hpair := spread_of_pair? h []
    rw [spread_of_pair? h]
    rcases Piece.pair?_cases h with ⟨_, rfl⟩ | ⟨_, _, rfl⟩
    · exact squeeze_spread_apart ['\n'] rfl ih
    · exact squeeze_spread_apart [c, d] hpair ih
  | single c rest h ih =>
    have hsingle : spread [c] = spreadOne c := rfl
    rw [spread_of_alone h]
    rcases spreadOne_cases c with hone | hone | hone | hone <;> rw [hone]
    · exact squeeze_spread_apart ['\n'] rfl ih
    · exact squeeze_spread_apart [c] (hsingle.trans hone) ih
    · rw [List.singleton_append, ← List.nil_append (' ' :: spread rest), spread_append_space]
      exact squeeze_congr ih [' ']
    · -- the letter forms no pair with what follows it now, either
      have halone : Alone c (spread rest) := by
        intro d hd
        rcases head?_spread rest d hd with rfl | hd
        · exact pair?_space_right c
        · exact h d hd
      rw [List.singleton_append, spread_of_alone halone, hone]
      exact squeeze_congr ih [c]

/-! ## Line breaks -/

/-- Every line break stands between spaces. -/
def BreaksApart (cs : List Char) : Prop :=
  ∀ before behind, cs = before ++ '\n' :: behind → before.getLast? = some ' ' ∧ behind.head? = some ' '

theorem breaksApart_of_not_mem (h : '\n' ∉ cs) : BreaksApart cs := by
  rintro before behind rfl
  exact absurd (List.mem_append_right before List.mem_cons_self) h

theorem breaksApart_spacedBreak : BreaksApart spacedBreak := by
  intro before behind h
  rcases before with _ | ⟨c, _ | ⟨d, _ | ⟨e, before⟩⟩⟩
  · simp [spacedBreak] at h
  · obtain ⟨rfl, hbehind⟩ := List.cons.inj h
    obtain rfl := (List.cons.inj hbehind).2
    exact ⟨rfl, rfl⟩
  · simp [spacedBreak] at h
  · simp [spacedBreak] at h

theorem BreaksApart.append (hcs : BreaksApart cs) (hds : BreaksApart ds) : BreaksApart (cs ++ ds) := by
  intro before behind h
  rcases List.append_eq_append_iff.mp h with ⟨more, rfl, hmore⟩ | ⟨more, rfl, hmore⟩
  · obtain ⟨hlast, hhead⟩ := hds _ _ hmore
    exact ⟨by rw [List.getLast?_append, hlast]; rfl, hhead⟩
  · cases more with
    | nil =>
      obtain ⟨hlast, _⟩ := hds [] behind hmore.symm
      cases hlast
    | cons d more =>
      obtain ⟨rfl, hbehind⟩ : '\n' = d ∧ behind = more ++ ds := List.cons.inj hmore
      obtain ⟨hlast, hhead⟩ := hcs _ _ rfl
      exact ⟨hlast, by rw [hbehind, List.head?_append, hhead]; rfl⟩

theorem breaksApart_flatMap (hps : ∀ p ∈ ps, p.Proper) : BreaksApart (ps.flatMap Piece.spread) := by
  have hunbroken {word : List Char} (h : Unbroken word) : '\n' ∉ word := fun hmem => absurd (h _ hmem) (by decide)
  induction ps with
  | nil => exact breaksApart_of_not_mem List.not_mem_nil
  | cons p ps ih =>
    rw [List.forall_mem_cons] at hps
    obtain ⟨hp, hps⟩ := hps
    rw [List.flatMap_cons]
    refine BreaksApart.append ?_ (ih hps)
    cases p with
    | lineBreak cs => exact breaksApart_spacedBreak
    | blank c => exact breaksApart_of_not_mem (by simp)
    | sign cs => exact breaksApart_of_not_mem (by simp [hunbroken hp.2])
    | letter c =>
      have hc : Unbroken [c] := fun d hd => List.mem_singleton.mp hd ▸ hp
      exact breaksApart_of_not_mem (hunbroken hc)

theorem breaksApart_spread (cs : List Char) : BreaksApart (spread cs) :=
  spread_eq cs ▸ breaksApart_flatMap (proper_of_mem_pieces cs)

theorem BreaksApart.squeeze (h : BreaksApart cs) : BreaksApart (squeeze cs) := by
  intro before behind hsqueeze
  obtain ⟨before', behind', hcs, rfl, rfl⟩ := exists_of_squeeze_eq (by decide) hsqueeze
  rw [getLast?_squeeze, head?_squeeze]
  exact h before' behind' hcs

/-! ## The normal form -/

/-- Apart from spaces and line feeds no blank is left. -/
theorem eq_of_mem_spread (hc : c ∈ spread cs) (hblank : isBlank c = true) : c = ' ' ∨ c = '\n' := by
  rw [spread_eq, List.mem_flatMap] at hc
  obtain ⟨p, hp, hc⟩ := hc
  have hproper := proper_of_mem_pieces cs p hp
  cases p with
  | lineBreak cs =>
    have hshape : c = ' ' ∨ c = '\n' ∨ c = ' ' := by simpa [spacedBreak] using hc
    exact hshape.elim .inl Or.symm
  | blank d => exact .inl (List.mem_singleton.mp hc)
  | sign cs =>
    have hletter : c ∉ cs := fun hmem => absurd (hproper.2 c hmem) (by simp [hblank])
    exact .inl (by simpa [hletter] using hc)
  | letter d =>
    have hletter : isBlank d = false := hproper
    rw [List.mem_singleton.mp hc, hletter] at hblank
    cases hblank

/-- In a normal text no two spaces are adjacent, every other blank is a line feed, and every line feed stands between spaces.
To normalize it once more changes nothing, and it has the lexemes of the text that it was made from, in the same places. -/
theorem normalize_canonical (source : String) :
    ¬[' ', ' '] <:+: (normalize source).toList ∧
    (∀ c ∈ (normalize source).toList, isBlank c = true → c = ' ' ∨ c = '\n') ∧
    (∀ before behind, (normalize source).toList = before ++ '\n' :: behind →
      before.getLast? = some ' ' ∧ behind.head? = some ' ') ∧
    normalize (normalize source) = normalize source ∧
    ∀ d : Dictionary, tokenize d (normalize source) = tokenize d source := by
  have hshape : (normalize source).toList = squeeze (spread source.toList) := String.toList_ofList
  have hagain : normalize (normalize source) = normalize source := by
    have hsqueeze := squeeze_spread_squeeze [] (spread source.toList)
    rw [List.nil_append, List.nil_append, squeeze_spread_spread] at hsqueeze
    rw [normalize, hshape, hsqueeze, normalize]
  rw [hshape]
  refine ⟨not_spaces_infix_squeeze _, ?_, (breaksApart_spread _).squeeze, hagain, fun d => ?_⟩
  · intro c hc
    exact eq_of_mem_spread ((squeeze_sublist _).mem hc)
  · rw [tokenize, hagain, tokenize]

end MiniPascal
