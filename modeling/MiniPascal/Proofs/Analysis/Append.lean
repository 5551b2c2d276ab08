import MiniPascal.Proofs.Analysis.Stop
import MiniPascal.Proofs.Analysis.Turns
import MiniPascal.Proofs.Scope.Growth

/-!
# Programs that are continued

What an analysis has found out about blocks and variables stays when more lexemes are added. An analysis that stops at a
lexeme stops there again, with the same scope table. One that stops at the end of the input, be it inside a comment, goes
on from the same table, and every step lets the table grow.

* `grows_of_takes`, `Moves.grows`: a goal that takes a lexeme, and a step.
* `State.grows_run`: a run.
* `scope_analyze_append`: the scope tables of a program and of the program with more lexemes behind it.
-/

namespace MiniPascal

variable {t t' : ScopeTable} {here : Place} {x : Lexeme} {g : Goal} {new : List Goal}

/-! ## Steps -/

theorem grows_of_begins {context : Context} (h : Begins t x context t' new) : t.Grows t' := by
  cases h with
  | opening => exact t.grows_openBlock _ _
  | closing => exact t.grows_closeBlock
  | _ => exact .refl t

theorem grows_of_declareName {type : DataType} (h : declareName t here x type = .take t' new) : t.Grows t' := by
  cases alters_of_declareName h with
  | keep => exact .refl t
  | opening => exact t.grows_openBlock _ _
  | closing => exact t.grows_closeBlock
  | declare _ _ _ hd => exact ScopeTable.grows_of_declare hd

/-- The scope table grows where a goal takes a lexeme. -/
theorem grows_of_takes (h : g.Takes t here x t' new) : t.Grows t' := by
  cases h with
  | programWord | beginWord => exact t.grows_openBlock _ _
  | endWord => exact t.grows_closeBlock
  | variableName _ hd => exact grows_of_declareName hd
  | operator hb | moreStatements hb => exact grows_of_begins hb
  | _ => exact .refl t

theorem Moves.grows {s s' : State} (h : Moves s x s') : s.scope.Grows s'.scope := by
  cases h with
  | skip | comment => exact .refl s.scope
  | goal _ _ _ _ ht => exact grows_of_takes (takes_of_onLexeme ht)

/-! ## Runs -/

/-- The scope table grows along a run, whether it is halted or not. -/
theorem State.grows_run (s : State) (program : List Lexeme) : s.scope.Grows (s.run program).2 := by
  induction program generalizing s with
  | nil => exact .refl s.scope
  | cons x rest ih =>
    rw [run]
    cases hs : s.step x with
    | error halt => exact .refl s.scope
    | ok next => exact (moves_of_step hs).grows.trans (ih next)

/-- Every block of a program is a block of the program with more lexemes behind it: in the same place, of the same kind
and in the same block, its variables in front of those that it may have got. -/
theorem scope_analyze_append (program more : List Lexeme) :
    (analyze program).scope.Grows (analyze (program ++ more)).scope := by
  obtain ⟨i, s, halt?, hstops⟩ := exists_stops program
  have hle := hstops.le_length
  have hsame : Reaches (program ++ more) i s := by
    rw [Reaches, List.take_append_of_le_length hle]
    exact hstops.reaches
  rw [hstops.analyze_eq]
  cases hstops with
  | @breach x halt _ hx hstep =>
    have hx' : (program ++ more)[i]? = some x := (List.getElem?_append_left (List.getElem?_eq_some_iff.mp hx).1).trans hx
    rw [(Stops.breach hsame hx' hstep).analyze_eq]
    exact .refl s.scope
  | finish hs hi =>
    have hrun : State.initial.run (program ++ more) = s.run more := by
      rw [Reaches, hi, List.take_length] at hs
      exact State.run_append hs more
    rw [analyze, hrun]
    exact s.grows_run more

end MiniPascal
