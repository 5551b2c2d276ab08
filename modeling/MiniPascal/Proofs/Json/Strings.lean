import Mathlib.Data.List.Basic
import MiniPascal.Json.Text
import MiniPascal.Proofs.Json.Written

/-!
# Every written form of a string is read

Whatever is written for a character, reading it from a place between two characters adds the character and leads to such
a place again.

* `Scans`: characters lead from one state to another, step by step; `Scans.append`, `Scans.map`.
* `hexDigit?_of_toLower`, `unit?_of_unitDigits`: digits have the value for which they are written.
* `endUnit_none`, `endUnit_pair`: the units of a character are read as the character, one or two of them.
* `scans_char`, `scans_text`: what is written for a character, and for several of them, is read.
-/

namespace MiniPascal.Json

/-! ## Steps one after the other -/

/-- Characters lead from one state to another, each by a step. -/
inductive Scans {σ : Type} (Step : σ → Char → σ → Prop) : σ → List Char → σ → Prop
  | nil {s : σ} : Scans Step s [] s
  | cons {s t u : σ} {c : Char} {cs : List Char} (hstep : Step s c t) (rest : Scans Step t cs u) :
      Scans Step s (c :: cs) u

namespace Scans

variable {σ τ : Type} {Step : σ → Char → σ → Prop} {s t u : σ} {c : Char} {cs ds : List Char}

theorem single (hstep : Step s c t) : Scans Step s [c] t :=
  .cons hstep .nil

theorem append (h : Scans Step s cs t) (h' : Scans Step t ds u) : Scans Step s (cs ++ ds) u := by
  induction h with
  | nil => exact h'
  | cons hstep _ ih => exact .cons hstep (ih h')

/-- States that stand for others step by step do so for all characters. -/
theorem map {Step' : τ → Char → τ → Prop} (f : σ → τ) (hf : ∀ s c t, Step s c t → Step' (f s) c (f t))
    (h : Scans Step s cs t) : Scans Step' (f s) cs (f t) := by
  induction h with
  | nil => exact .nil
  | cons hstep _ ih => exact .cons (hf _ _ _ hstep) ih

end Scans

/-- A character is read and the string goes on. -/
abbrev TextState.GoesOn (s : TextState) (c : Char) (t : TextState) : Prop :=
  s.step c = .more t

/-! ## Hexadecimal digits -/

/-- A digit is one of the first 128 characters, for so is its small letter. -/
theorem toNat_lt_of_toLower {c d : Char} (h : c.toLower = d) (hd : d.toNat < 128) : c.toNat < 128 := by
  by_cases hcapital : c.val ≥ 'A'.val ∧ c.val ≤ 'Z'.val
  · have hle : c.val.toNat ≤ 'Z'.val.toNat := UInt32.le_iff_toNat_le.mp hcapital.2
    have hz : 'Z'.val.toNat = 90 := rfl
    have hc : c.toNat = c.val.toNat := rfl
    omega
  · have hsame : c.toLower = c := dif_neg hcapital
    rw [← hsame, h]
    exact hd

theorem hexDigit?_of_toLower {c : Char} {v : Nat} (hv : v < 16) (h : c.toLower = Nat.digitChar v) :
    hexDigit? c = some v ∧ c.utf8Size = 1 := by
  have hdigit : ∀ v < 16, (Nat.digitChar v).toNat < 128 := by decide
  have hvalue : ∀ n < 128, ∀ v < 16, (Char.ofNat n).toLower = Nat.digitChar v → hexDigit? (Char.ofNat n) = some v ∧
      (Char.ofNat n).utf8Size = 1 := by
    decide +kernel
  have hlt := toNat_lt_of_toLower h (hdigit v hv)
  rw [← Char.ofNat_toNat c] at h ⊢
  exact hvalue c.toNat hlt v hv h

/-- Four digits, one byte each, have the value of the unit for which they are written. -/
theorem unit?_of_unitDigits {unit : Nat} {digits : List Char} (hunit : unit < 0x10000)
    (h : digits.map Char.toLower = unitDigits unit) :
    ∃ a b c d, digits = [a, b, c, d] ∧ unit? digits = some unit ∧
      a.utf8Size = 1 ∧ b.utf8Size = 1 ∧ c.utf8Size = 1 ∧ d.utf8Size = 1 := by
  have hlength : digits.length = 4 := by simpa [unitDigits] using congrArg List.length h
  obtain ⟨a, b, c, d, rfl⟩ := List.length_eq_four.mp hlength
  simp only [List.map_cons, List.map_nil, unitDigits, List.cons.injEq, and_true] at h
  obtain ⟨ha, hb, hc, hd⟩ := h
  obtain ⟨ha, ha'⟩ := hexDigit?_of_toLower (by omega) ha
  obtain ⟨hb, hb'⟩ := hexDigit?_of_toLower (by omega) hb
  obtain ⟨hc, hc'⟩ := hexDigit?_of_toLower (by omega) hc
  obtain ⟨hd, hd'⟩ := hexDigit?_of_toLower (by omega) hd
  have hvalue : ((unit / 0x1000 % 0x10 * 16 + unit / 0x100 % 0x10) * 16 + unit / 0x10 % 0x10) * 16 + unit % 0x10 =
      unit := by
    omega
  exact ⟨a, b, c, d, rfl, by simp [unit?, ha, hb, hc, hd, hvalue], ha', hb', hc', hd'⟩

namespace TextState

variable {reversed : List Char} {c : Char} {cs : List Char}

/-! ## Escapes -/

theorem goesOn_escape : GoesOn ⟨reversed, .none⟩ '\\' ⟨reversed, .begun⟩ := rfl

theorem scans_unitMark : Scans GoesOn ⟨reversed, .none⟩ ['\\', 'u'] ⟨reversed, .unit none []⟩ :=
  .cons goesOn_escape (.single rfl)

theorem scans_trailMark (lead : Nat) :
    Scans GoesOn ⟨reversed, .lead lead⟩ ['\\', 'u'] ⟨reversed, .unit (some lead) []⟩ :=
  .cons (t := ⟨reversed, .leadBegun lead⟩) rfl (.single rfl)

/-- The digits of a unit are read up to its end. -/
theorem scans_digits {lead? : Option Nat} {unit : Nat} {digits : List Char} {next : TextState} (hunit : unit < 0x10000)
    (hdigits : digits.map Char.toLower = unitDigits unit)
    (hend : ∀ escape, (⟨reversed, escape⟩ : TextState).endUnit lead? unit = .more next) :
    Scans GoesOn ⟨reversed, .unit lead? []⟩ digits next := by
  obtain ⟨a, b, c, d, rfl, hvalue, ha, hb, hc, hd⟩ := unit?_of_unitDigits hunit hdigits
  refine .cons (t := ⟨reversed, .unit lead? [a]⟩) ?_ (.cons (t := ⟨reversed, .unit lead? [a, b]⟩) ?_
    (.cons (t := ⟨reversed, .unit lead? [a, b, c]⟩) ?_ (.single ?_)))
  · simp [GoesOn, step, stepUnit, utf8Length, ha, await]
  · simp [GoesOn, step, stepUnit, utf8Length, ha, hb, await]
  · simp [GoesOn, step, stepUnit, utf8Length, ha, hb, hc, await]
  · simp [GoesOn, step, stepUnit, utf8Length, ha, hb, hc, hd, hvalue, hend]

/-- A character is not one of the units of a surrogate pair. -/
theorem endUnit_none (s : TextState) (c : Char) : s.endUnit none c.toNat = s.add c := by
  have hvalid : c.toNat < 0xD800 ∨ 0xDFFF < c.toNat ∧ c.toNat < 0x110000 := c.valid
  have htrail : isTrail c.toNat = false := by
    rw [isTrail, Bool.and_eq_false_iff, decide_eq_false_iff_not, decide_eq_false_iff_not]
    omega
  have hlead : isLead c.toNat = false := by
    rw [isLead, Bool.and_eq_false_iff, decide_eq_false_iff_not, decide_eq_false_iff_not]
    omega
  simp [endUnit, htrail, hlead, Char.ofNat_toNat]

/-- The two units of a character beyond the first plane are those of its surrogate pair. -/
theorem endUnit_pair (s : TextState) {lead trail : Nat} (hc : 0x10000 ≤ c.toNat)
    (hlead : lead = 0xD800 + (c.toNat - 0x10000) / 0x400) (htrail : trail = 0xDC00 + (c.toNat - 0x10000) % 0x400) :
    s.endUnit none lead = s.await (.lead lead) ∧ s.endUnit (some lead) trail = s.add c := by
  have hvalid : c.toNat < 0xD800 ∨ 0xDFFF < c.toNat ∧ c.toNat < 0x110000 := c.valid
  have hisLead : isLead lead = true := by
    rw [isLead, Bool.and_eq_true, decide_eq_true_eq, decide_eq_true_eq]
    omega
  have hnoTrail : isTrail lead = false := by
    rw [isTrail, Bool.and_eq_false_iff, decide_eq_false_iff_not, decide_eq_false_iff_not]
    omega
  have hisTrail : isTrail trail = true := by
    rw [isTrail, Bool.and_eq_true, decide_eq_true_eq, decide_eq_true_eq]
    omega
  have hpair : ofPair lead trail = c := by
    have hvalue : 0x10000 + (lead - 0xD800) * 0x400 + (trail - 0xDC00) = c.toNat := by omega
    rw [ofPair, hvalue, Char.ofNat_toNat]
  exact ⟨by simp [endUnit, hnoTrail, hisLead], by simp [endUnit, hisTrail, hpair]⟩

theorem scans_units (h : UnitsWritten (units c) cs) : Scans GoesOn ⟨reversed, .none⟩ cs ⟨c :: reversed, .none⟩ := by
  have hvalid : c.toNat < 0xD800 ∨ 0xDFFF < c.toNat ∧ c.toNat < 0x110000 := c.valid
  rw [units] at h
  split at h
  case isTrue hsmall =>
    obtain _ | ⟨hdigits, _ | _⟩ := h
    have hread : Scans GoesOn ⟨reversed, .unit none []⟩ _ ⟨c :: reversed, .none⟩ :=
      scans_digits hsmall hdigits fun _ => endUnit_none _ c
    rw [List.append_nil]
    exact scans_unitMark.append hread
  case isFalse hlarge =>
    -- The steps up to the last digit need no more of the two units than that they are units.
    generalize hlead : 0xD800 + (c.toNat - 0x10000) / 0x400 = lead at h
    generalize htrail : 0xDC00 + (c.toNat - 0x10000) % 0x400 = trail at h
    obtain _ | ⟨hdigits, _ | ⟨hdigits', _ | _⟩⟩ := h
    have hends (s : TextState) := endUnit_pair s (Nat.le_of_not_lt hlarge) hlead.symm htrail.symm
    have hreadLead : Scans GoesOn ⟨reversed, .unit none []⟩ _ ⟨reversed, .lead lead⟩ :=
      scans_digits (by omega) hdigits fun _ => (hends _).1
    have hreadTrail : Scans GoesOn ⟨reversed, .unit (some lead) []⟩ _ ⟨c :: reversed, .none⟩ :=
      scans_digits (by omega) hdigits' fun _ => (hends _).2
    rw [List.append_nil]
    exact scans_unitMark.append (hreadLead.append ((scans_trailMark lead).append hreadTrail))

/-! ## Characters -/

/-- A character is read from whatever is written for it. -/
theorem scans_char (h : CharWritten c cs) : Scans GoesOn ⟨reversed, .none⟩ cs ⟨c :: reversed, .none⟩ := by
  cases h with
  | raw hquote hbackslash hcontrol =>
    refine .single ?_
    simp [GoesOn, step, hquote, hbackslash, Nat.not_lt.mpr hcontrol, add]
  | letter hletter =>
    refine .cons goesOn_escape (.single ?_)
    simp only [escapeLetters, List.mem_cons, Prod.mk.injEq, List.not_mem_nil, or_false] at hletter
    rcases hletter with ⟨rfl, rfl⟩ | ⟨rfl, rfl⟩ | ⟨rfl, rfl⟩ | ⟨rfl, rfl⟩ | ⟨rfl, rfl⟩ | ⟨rfl, rfl⟩ | ⟨rfl, rfl⟩ |
      ⟨rfl, rfl⟩ <;> rfl
  | units hunits => exact scans_units hunits

theorem scans_text {text : List Char} (h : TextWritten text cs) :
    Scans GoesOn ⟨reversed, .none⟩ cs ⟨text.reverse ++ reversed, .none⟩ := by
  induction h generalizing reversed with
  | nil => exact .nil
  | cons hc _ ih =>
    rw [List.reverse_cons, List.append_assoc]
    exact (scans_char hc).append ih

/-- What stands between the quotes of a string is read, and its closing quote ends it. -/
theorem scans_string {s : String} (h : TextWritten s.toList cs) :
    ∃ last : TextState, Scans GoesOn .empty cs last ∧ last.step '"' = .closed s := by
  refine ⟨_, scans_text h, ?_⟩
  simp [step, text]

end TextState

end MiniPascal.Json
