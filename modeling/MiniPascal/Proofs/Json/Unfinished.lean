import MiniPascal.Proofs.Json.Strings

/-!
# Strings and lists as far as they are written

A text is read from left to right, so at any time a string or a list is written in part only. What there is of it is told
by what may follow, and each character that is read adds to it.

* `EscapeBegun`, `TextState.Behind`: what is written of an escape, and of a string; `Behind.step` is the step that keeps it.
* `Behind.closed`: a string that is closed is written in full.
* `Begun`, `Filled`: values in brackets, where another one may follow and where one has just ended.
-/

namespace MiniPascal.Json

/-! ## Units from their digits -/

theorem digit_of_hexDigit? {c : Char} {v : Nat} (h : hexDigit? c = some v) : v < 16 ∧ c.toLower = Nat.digitChar v := by
  have hdigit : ∀ n < 128, ∀ v ∈ hexDigit? (Char.ofNat n), v < 16 ∧ (Char.ofNat n).toLower = Nat.digitChar v := by
    decide +kernel
  have hlt : c.toNat < 128 := by
    have hbelow {d : Char} (hd : d.toNat < 128) (hle : c ≤ d) : c.toNat < 128 :=
      Nat.lt_of_le_of_lt (UInt32.le_iff_toNat_le.mp hle) hd
    rw [hexDigit?] at h
    split at h
    case isTrue hrange => exact hbelow (by decide) hrange.2
    split at h
    case isTrue hrange => exact hbelow (by decide) hrange.2
    split at h
    case isTrue hrange => exact hbelow (by decide) hrange.2
    cases h
  rw [← Char.ofNat_toNat c] at h ⊢
  exact hdigit c.toNat hlt v h

theorem unitDigits_of_unit? {digits : List Char} {unit : Nat} (h : unit? digits = some unit) :
    unit < 0x10000 ∧ digits.map Char.toLower = unitDigits unit := by
  rw [unit?.eq_def] at h
  split at h
  · simp only [Option.bind_eq_bind, Option.bind_eq_some_iff, Option.pure_def, Option.some.injEq] at h
    obtain ⟨va, ha, vb, hb, vc, hc, vd, hd, hunit⟩ := h
    obtain ⟨hva, ha⟩ := digit_of_hexDigit? ha
    obtain ⟨hvb, hb⟩ := digit_of_hexDigit? hb
    obtain ⟨hvc, hc⟩ := digit_of_hexDigit? hc
    obtain ⟨hvd, hd⟩ := digit_of_hexDigit? hd
    have hfirst : unit / 0x1000 % 0x10 = va := by omega
    have hsecond : unit / 0x100 % 0x10 = vb := by omega
    have hthird : unit / 0x10 % 0x10 = vc := by omega
    have hfourth : unit % 0x10 = vd := by omega
    refine ⟨by omega, ?_⟩
    simp [unitDigits, ha, hb, hc, hd, hfirst, hsecond, hthird, hfourth]
  · cases h

/-- The units of the character that a number stands for. -/
theorem units_of_isValidChar {n : Nat} (hn : n.isValidChar) :
    units (Char.ofNat n) =
      if n < 0x10000 then [n] else [0xD800 + (n - 0x10000) / 0x400, 0xDC00 + (n - 0x10000) % 0x400] := by
  have hnumber : (Char.ofNat n).toNat = n := by
    rw [Char.ofNat, dif_pos hn]
    rfl
  rw [units, hnumber]

theorem units_ofNat {unit : Nat} (hunit : unit < 0x10000) (hlead : isLead unit = false) (htrail : isTrail unit = false) :
    units (Char.ofNat unit) = [unit] := by
  have hvalid : unit.isValidChar := by
    simp only [isLead, isTrail, Bool.and_eq_false_iff, decide_eq_false_iff_not] at hlead htrail
    unfold Nat.isValidChar
    omega
  rw [units_of_isValidChar hvalid, if_pos hunit]

theorem units_ofPair {lead trail : Nat} (hlead : isLead lead = true) (htrail : isTrail trail = true) :
    units (ofPair lead trail) = [lead, trail] := by
  simp only [isLead, isTrail, Bool.and_eq_true, decide_eq_true_eq] at hlead htrail
  have hvalid : (0x10000 + (lead - 0xD800) * 0x400 + (trail - 0xDC00)).isValidChar := by
    unfold Nat.isValidChar
    omega
  rw [ofPair, units_of_isValidChar hvalid, if_neg (by omega)]
  have hlead' : 0xD800 + (0x10000 + (lead - 0xD800) * 0x400 + (trail - 0xDC00) - 0x10000) / 0x400 = lead := by omega
  have htrail' : 0xDC00 + (0x10000 + (lead - 0xD800) * 0x400 + (trail - 0xDC00) - 0x10000) % 0x400 = trail := by omega
  rw [hlead', htrail']

/-! ## Strings -/

theorem TextWritten.concat {text cs ds : List Char} {c : Char} (h : TextWritten text cs) (hc : CharWritten c ds) :
    TextWritten (text ++ [c]) (cs ++ ds) := by
  induction h with
  | nil =>
    have hsingle := TextWritten.cons hc .nil
    rwa [List.append_nil] at hsingle
  | cons hd _ ih =>
    rw [List.append_assoc]
    exact .cons hd ih

/-- What is written of an escape. -/
inductive EscapeBegun : Escape → List Char → Prop
  | none : EscapeBegun .none []
  | begun : EscapeBegun .begun ['\\']
  | unit {digits : List Char} : EscapeBegun (.unit none digits) ('\\' :: 'u' :: digits)
  | lead {lead : Nat} {digits : List Char} (hlead : isLead lead = true)
      (hdigits : digits.map Char.toLower = unitDigits lead) : EscapeBegun (.lead lead) ('\\' :: 'u' :: digits)
  | leadBegun {lead : Nat} {cs : List Char} (hlead : EscapeBegun (.lead lead) cs) :
      EscapeBegun (.leadBegun lead) (cs ++ ['\\'])
  | trail {lead : Nat} {cs digits : List Char} (hlead : EscapeBegun (.lead lead) cs) :
      EscapeBegun (.unit (some lead) digits) (cs ++ '\\' :: 'u' :: digits)

namespace TextState

variable {s t : TextState} {c : Char} {cs : List Char}

/-- What is written behind the opening quote of a string. -/
inductive Behind (s : TextState) : List Char → Prop
  | intro {cs escape : List Char} (htext : TextWritten s.reversed.reverse cs) (hescape : EscapeBegun s.escape escape) :
      Behind s (cs ++ escape)

theorem behind_empty : empty.Behind [] :=
  .intro (s := empty) .nil .none

/-- A character of the string is complete. -/
theorem behind_add {reversed escape : List Char} {d : Char} (htext : TextWritten reversed.reverse cs)
    (hd : CharWritten d escape) : Behind ⟨d :: reversed, .none⟩ (cs ++ escape) := by
  have htext' : TextWritten (d :: reversed).reverse (cs ++ escape) := by
    rw [List.reverse_cons]
    exact htext.concat hd
  have h := Behind.intro (s := ⟨d :: reversed, .none⟩) htext' .none
  rwa [List.append_nil] at h

/-- The letter of a short escape is listed. -/
theorem mem_escapeLetters {letter d : Char} (h : shortEscape? letter = some d) : (letter, d) ∈ escapeLetters := by
  rw [shortEscape?.eq_def] at h
  split at h <;> cases h <;> decide

/-- A unit ends a character, or it leads a pair and something more has to follow. -/
theorem behind_endUnit {reversed digits : List Char} {escape : Escape} {unit : Nat}
    (htext : TextWritten reversed.reverse cs) (hunit : unit? digits = some unit)
    (hend : (⟨reversed, escape⟩ : TextState).endUnit none unit = .more t) :
    t.Behind (cs ++ '\\' :: 'u' :: digits) := by
  obtain ⟨hlt, hdigits⟩ := unitDigits_of_unit? hunit
  rw [endUnit] at hend
  split at hend
  case isTrue => cases hend
  case isFalse htrail =>
    split at hend
    case isTrue hlead =>
      obtain rfl := TextStep.more.inj hend
      exact .intro htext (.lead hlead hdigits)
    case isFalse hlead =>
      obtain rfl := TextStep.more.inj hend
      have hunits := units_ofNat hlt (Bool.eq_false_iff.mpr hlead) (Bool.eq_false_iff.mpr htrail)
      have hwritten : UnitsWritten (units (Char.ofNat unit)) ('\\' :: 'u' :: digits ++ []) :=
        hunits ▸ .cons hdigits .nil
      rw [List.append_nil] at hwritten
      exact behind_add htext (.units hwritten)

/-- The second unit of a pair ends a character. -/
theorem behind_endPair {reversed leadDigits digits : List Char} {escape : Escape} {lead unit : Nat}
    (htext : TextWritten reversed.reverse cs) (hlead : EscapeBegun (.lead lead) leadDigits)
    (hunit : unit? digits = some unit)
    (hend : (⟨reversed, escape⟩ : TextState).endUnit (some lead) unit = .more t) :
    t.Behind (cs ++ (leadDigits ++ '\\' :: 'u' :: digits)) := by
  obtain ⟨_, hdigits⟩ := unitDigits_of_unit? hunit
  cases hlead with
  | @lead _ leadDigits hisLead hleadDigits =>
    rw [endUnit] at hend
    split at hend
    case isTrue hisTrail =>
      obtain rfl := TextStep.more.inj hend
      have hunits := units_ofPair hisLead hisTrail
      have hwritten : UnitsWritten (units (ofPair lead unit))
          ('\\' :: 'u' :: leadDigits ++ ('\\' :: 'u' :: digits ++ [])) :=
        hunits ▸ .cons hleadDigits (.cons hdigits .nil)
      rw [List.append_nil] at hwritten
      exact behind_add htext (.units hwritten)
    case isFalse => cases hend

theorem stepUnit_eq_more {lead? : Option Nat} {digits : List Char} (h : s.stepUnit lead? digits = .more t) :
    s.await (.unit lead? digits) = .more t ∨ ∃ unit, unit? digits = some unit ∧ s.endUnit lead? unit = .more t := by
  rw [stepUnit] at h
  split at h
  case isTrue => exact .inl h
  case isFalse =>
    split at h
    case h_1 unit hunit => exact .inr ⟨unit, hunit, h⟩
    case h_2 => cases h

/-- One more character of a string is read. -/
theorem Behind.step (h : s.Behind cs) (hstep : s.step c = .more t) : t.Behind (cs ++ [c]) := by
  obtain ⟨reversed, escape⟩ := s
  obtain ⟨htext, hescape⟩ := h
  rw [List.append_assoc]
  cases hescape with
  | none =>
    simp only [TextState.step] at hstep
    split at hstep
    case isTrue => cases hstep
    case isFalse hquote =>
      split at hstep
      case isTrue hbackslash =>
        obtain rfl := TextStep.more.inj hstep
        subst hbackslash
        exact .intro htext .begun
      case isFalse hbackslash =>
        split at hstep
        case isTrue => cases hstep
        case isFalse hcontrol =>
          obtain rfl := TextStep.more.inj hstep
          exact behind_add htext (.raw hquote hbackslash (Nat.le_of_not_lt hcontrol))
  | begun =>
    simp only [TextState.step] at hstep
    split at hstep
    case isTrue hu =>
      obtain rfl := TextStep.more.inj hstep
      subst hu
      exact .intro htext .unit
    case isFalse =>
      split at hstep
      case h_1 d hletter =>
        obtain rfl := TextStep.more.inj hstep
        exact behind_add htext (.letter (mem_escapeLetters hletter))
      case h_2 => cases hstep
  | unit =>
    rcases stepUnit_eq_more hstep with hmore | ⟨unit, hunit, hend⟩
    · obtain rfl := TextStep.more.inj hmore
      exact .intro htext .unit
    · exact behind_endUnit htext hunit hend
  | lead hlead hdigits =>
    simp only [TextState.step] at hstep
    split at hstep
    case isTrue hbackslash =>
      obtain rfl := TextStep.more.inj hstep
      subst hbackslash
      exact .intro htext (.leadBegun (.lead hlead hdigits))
    case isFalse => cases hstep
  | leadBegun hlead =>
    simp only [TextState.step] at hstep
    split at hstep
    case isTrue hu =>
      obtain rfl := TextStep.more.inj hstep
      subst hu
      rw [List.append_assoc]
      exact .intro htext (.trail hlead)
    case isFalse => cases hstep
  | trail hlead =>
    rw [List.append_assoc]
    rcases stepUnit_eq_more hstep with hmore | ⟨unit, hunit, hend⟩
    · obtain rfl := TextStep.more.inj hmore
      exact .intro htext (.trail hlead)
    · exact behind_endPair htext hlead hunit hend

theorem stepUnit_ne_closed {lead? : Option Nat} {digits : List Char} {text : String} :
    s.stepUnit lead? digits ≠ .closed text := by
  intro h
  rw [stepUnit] at h
  split at h
  case isTrue => cases h
  case isFalse =>
    split at h
    case h_1 unit _ =>
      cases lead? <;> simp only [endUnit] at h <;> repeat' split at h
      all_goals cases h
    case h_2 => cases h

/-- A string that is closed is written in full. -/
theorem Behind.closed {text : String} (h : s.Behind cs) (hstep : s.step c = .closed text) :
    StringWritten text ('"' :: cs ++ [c]) := by
  obtain ⟨reversed, escape⟩ := s
  obtain ⟨htext, hescape⟩ := h
  -- Only a quote outside of every escape closes a string.
  cases hescape with
  | none =>
    simp only [TextState.step] at hstep
    split at hstep
    case isTrue hquote =>
      obtain rfl := TextStep.closed.inj hstep
      subst hquote
      rw [List.append_nil]
      refine .quoted ?_
      rw [TextState.text, String.toList_ofList]
      exact htext
    case isFalse =>
      repeat' split at hstep
      all_goals cases hstep
  | begun =>
    simp only [TextState.step] at hstep
    repeat' split at hstep
    all_goals cases hstep
  | unit => exact absurd hstep stepUnit_ne_closed
  | lead =>
    simp only [TextState.step] at hstep
    split at hstep <;> cases hstep
  | leadBegun =>
    simp only [TextState.step] at hstep
    split at hstep <;> cases hstep
  | trail => exact absurd hstep stepUnit_ne_closed

end TextState

/-! ## Lists -/

section Lists

variable {α : Type} {Written : α → List Char → Prop} {opener closer : Char} {xs ys : List α} {x : α}
  {cs ds blanks : List Char}

theorem Blank.append {bs : List Char} (h : Blank blanks) (h' : Blank bs) : Blank (blanks ++ bs) :=
  fun c hc => (List.mem_append.mp hc).elim (h c) (h' c)

theorem Listed.append (h : Listed Written xs cs) (h' : Listed Written ys ds) :
    Listed Written (xs ++ ys) (cs ++ ',' :: ds) := by
  induction h with
  | last hbefore hx hbehind => exact .more hbefore hx hbehind h'
  | more hbefore hx hbehind _ ih =>
    rw [List.append_assoc]
    exact .more hbefore hx hbehind ih

theorem Listed.blank (h : Listed Written xs cs) (hblanks : Blank blanks) : Listed Written xs (cs ++ blanks) := by
  induction h with
  | last hbefore hx hbehind =>
    rw [List.append_assoc]
    exact .last hbefore hx (hbehind.append hblanks)
  | more hbefore hx hbehind _ ih =>
    rw [List.append_assoc]
    exact .more hbefore hx hbehind ih

/-- Values behind an opening bracket, the last one with what may stand behind it. -/
inductive Filled (Written : α → List Char → Prop) (opener : Char) (xs : List α) : List Char → Prop
  | intro {cs : List Char} (hxs : Listed Written xs cs) : Filled Written opener xs (opener :: cs)

/-- What is written behind an opening bracket before a value: nothing yet, or other values and a comma. -/
inductive Begun (Written : α → List Char → Prop) (opener : Char) : List α → List Char → Prop
  | first {blanks : List Char} (hblanks : Blank blanks) : Begun Written opener [] (opener :: blanks)
  | next {xs : List α} {cs blanks : List Char} (hxs : Listed Written xs cs) (hblanks : Blank blanks) :
      Begun Written opener xs (opener :: cs ++ ',' :: blanks)

theorem Begun.blank (h : Begun Written opener xs cs) (hblanks : Blank blanks) :
    Begun Written opener xs (cs ++ blanks) := by
  cases h with
  | first hbefore => exact .first (hbefore.append hblanks)
  | next hxs hbefore =>
    rw [List.append_assoc]
    exact .next hxs (hbefore.append hblanks)

/-- One more value is written. -/
theorem Begun.item (h : Begun Written opener xs cs) (hx : Written x ds) : Filled Written opener (xs ++ [x]) (cs ++ ds) := by
  have hlast {blanks : List Char} (hblanks : Blank blanks) : Listed Written [x] (blanks ++ ds) := by
    have h := Listed.last hblanks hx (show Blank [] from nofun)
    rwa [List.append_nil] at h
  cases h with
  | first hblanks => exact .intro (hlast hblanks)
  | next hxs hblanks =>
    rw [List.append_assoc]
    exact .intro (hxs.append (hlast hblanks))

theorem Filled.blank (h : Filled Written opener xs cs) (hblanks : Blank blanks) :
    Filled Written opener xs (cs ++ blanks) := by
  obtain ⟨hxs⟩ := h
  exact .intro (hxs.blank hblanks)

theorem Filled.comma (h : Filled Written opener xs cs) : Begun Written opener xs (cs ++ [',']) := by
  obtain ⟨hxs⟩ := h
  exact .next hxs (show Blank [] from nofun)

theorem Filled.close (h : Filled Written opener xs cs) : Enclosed Written opener closer xs (cs ++ [closer]) := by
  obtain ⟨hxs⟩ := h
  exact .listed hxs

end Lists

end MiniPascal.Json
