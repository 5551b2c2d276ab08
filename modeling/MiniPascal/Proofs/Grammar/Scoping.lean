import MiniPascal.Identifier
import MiniPascal.Proofs.Grammar.Tree
import MiniPascal.Proofs.Scope.Frames

/-!
# Well-scoped trees

A tree is read in text order against a stack of frames. Declaring adds to the frame on top, a block between brackets
pushes a frame and pops it again; the frames behind a tree are what it leaves. A tree has none where a declared name is
no identifier or stands in the frame on top already, where a used name stands in no frame, or where an operand of an
assignment does not have the type of its target.

* `Operand.fitsIn`: an operand is known, and of the expected type if one is expected.
* `Operator.scope?`, `Program.scope?`: the frames behind a tree.
* `Program.WellScoped`: programs all of whose names are declared in time and whose assignments are well typed.
-/

namespace MiniPascal

/-! ## Uses -/

/-- A variable is declared in some frame, a literal is one of some type, and either has the type that is expected. -/
def Operand.fitsIn (frames : List Frame) (expected : Option DataType) : Operand → Bool
  | named name => (typeIn? frames name).any fun type => expected.all (· = type)
  | literal text => (DataType.ofLiteral? text).isSome && expected.all (·.acceptsLiteral text)

def Expression.fitsIn (frames : List Frame) (expected : Option DataType) (e : Expression) : Bool :=
  e.first.operand.fitsIn frames expected && e.more.all (·.2.operand.fitsIn frames expected)

/-- Conditions are not typed. -/
def Condition.fitsIn (frames : List Frame) (c : Condition) : Bool :=
  c.first.fitsIn frames none && c.more.all (·.2.fitsIn frames none)

/-- The target is declared, and the value has its type. -/
def Assignment.fitsIn (frames : List Frame) (a : Assignment) : Bool :=
  (typeIn? frames a.target).any fun type => a.value.fitsIn frames (some type)

/-! ## Declarations -/

/-- Declares a variable in the frame on top. -/
def declareIn? (type : DataType) (frames : List Frame) (name : String) : Option (List Frame) :=
  match frames with
  | [] => none
  | f :: rest => if isIdentifier name && (f.declared.lookup name).isNone then some (f.add name type :: rest) else none

def VariableList.declare? (l : VariableList) (frames : List Frame) : Option (List Frame) :=
  (l.first :: l.more).foldlM (declareIn? l.type) frames

/-- Declares the variables of lists that stand one behind the other. -/
def declareAll? (lists : List VariableList) (frames : List Frame) : Option (List Frame) :=
  lists.foldlM (fun frames l => l.declare? frames) frames

/-! ## Operators and programs -/

mutual

/-- The frames behind an operator. -/
def Operator.scope? : Operator → List Frame → Option (List Frame)
  | .declaring list operator, frames => (list.declare? frames).bind operator.scope?
  | .assign assignment, frames => if assignment.fitsIn frames then some frames else none
  | .read first more, frames => if (first :: more).all fun name => (typeIn? frames name).isSome then some frames else none
  | .write first more, frames => if (first :: more).all (·.fitsIn frames) then some frames else none
  | .whileDo condition body, frames => if condition.fitsIn frames then body.scope? frames else none
  | .forDo start limit body, frames =>
    if start.fitsIn frames && limit.fitsIn frames then body.scope? frames else none
  | .ifThen condition branch, frames => if condition.fitsIn frames then branch.scope? frames else none
  | .ifElse condition branch alternative, frames =>
    if condition.fitsIn frames then (branch.scope? frames).bind alternative.scope? else none
  | .block operators lists, frames =>
    ((Operator.scopeOfAll? operators (⟨true, []⟩ :: frames)).bind (declareAll? lists)).map (·.tail)

/-- The frames behind operators that stand one behind the other. -/
def Operator.scopeOfAll? : List Operator → List Frame → Option (List Frame)
  | [], frames => some frames
  | operator :: rest, frames => (operator.scope? frames).bind (Operator.scopeOfAll? rest)

end

def Ending.scope? : Ending → List Frame → Option (List Frame)
  | operator o, frames => o.scope? frames
  | empty lists, frames => declareAll? lists frames

/-- The frames at the end of a program: those of the program and of the block between `begin` and `end`. -/
def Program.scope? (p : Program) : Option (List Frame) :=
  ((declareAll? p.lists [⟨false, []⟩]).bind fun frames =>
    Operator.scopeOfAll? p.operators (⟨false, []⟩ :: frames)).bind p.ending.scope?

/-- Every name of a program is an identifier, declared once in its block and before it is used, in a block that is
still open there, and every assignment is well typed. -/
def Program.WellScoped (p : Program) : Prop :=
  p.scope?.isSome

instance (p : Program) : Decidable p.WellScoped :=
  inferInstanceAs (Decidable (p.scope?.isSome = true))

/-! ## Open brackets -/

variable {frames frames' : List Frame}

/-- A declaration opens and closes no block. -/
theorem shape_declareIn? {type : DataType} {name : String} (h : declareIn? type frames name = some frames') :
    shape frames' = shape frames := by
  cases frames with
  | nil => cases h
  | cons f rest =>
    simp only [declareIn?, Option.ite_none_right_eq_some, Option.some.injEq] at h
    obtain ⟨_, rfl⟩ := h
    rfl

/-- What no step changes, a chain of steps does not change. -/
theorem shape_foldlM {α : Type} {step : List Frame → α → Option (List Frame)}
    (hstep : ∀ {a frames frames'}, step frames a = some frames' → shape frames' = shape frames) {as : List α}
    (h : as.foldlM step frames = some frames') : shape frames' = shape frames := by
  induction as generalizing frames with
  | nil =>
    obtain rfl : frames = frames' := by simpa using h
    rfl
  | cons a as ih =>
    rw [List.foldlM_cons, Option.bind_eq_bind, Option.bind_eq_some_iff] at h
    obtain ⟨frames₁, ha, has⟩ := h
    exact (ih has).trans (hstep ha)

theorem shape_declare? {l : VariableList} (h : l.declare? frames = some frames') : shape frames' = shape frames :=
  shape_foldlM shape_declareIn? h

theorem shape_declareAll? {lists : List VariableList} (h : declareAll? lists frames = some frames') :
    shape frames' = shape frames :=
  shape_foldlM shape_declare? h

mutual

/-- An operator closes the blocks that it opens and no other. -/
theorem shape_scope? : ∀ (o : Operator) {frames frames' : List Frame}, o.scope? frames = some frames' →
    shape frames' = shape frames
  | .declaring l o, _, _, h => by
    obtain ⟨frames₁, hl, ho⟩ := Option.bind_eq_some_iff.mp h
    exact (shape_scope? o ho).trans (shape_declare? hl)
  | .assign _, _, _, h | .read _ _, _, _, h | .write _ _, _, _, h => by
    simp only [Operator.scope?, Option.ite_none_right_eq_some, Option.some.injEq] at h
    rw [h.2]
  | .whileDo _ o, _, _, h | .forDo _ _ o, _, _, h | .ifThen _ o, _, _, h => by
    simp only [Operator.scope?, Option.ite_none_right_eq_some] at h
    exact shape_scope? o h.2
  | .ifElse _ o o', _, _, h => by
    simp only [Operator.scope?, Option.ite_none_right_eq_some] at h
    obtain ⟨frames₁, ho, ho'⟩ := Option.bind_eq_some_iff.mp h.2
    exact (shape_scope? o' ho').trans (shape_scope? o ho)
  | .block os lists, _, _, h => by
    obtain ⟨frames₁, hbind, rfl⟩ := Option.map_eq_some_iff.mp h
    obtain ⟨frames₂, hos, hlists⟩ := Option.bind_eq_some_iff.mp hbind
    have hshape := (shape_declareAll? hlists).trans (shape_scopeOfAll? os hos)
    simp [hshape]

theorem shape_scopeOfAll? : ∀ (os : List Operator) {frames frames' : List Frame},
    Operator.scopeOfAll? os frames = some frames' → shape frames' = shape frames
  | [], _, _, h => by
    cases h
    rfl
  | o :: os, _, _, h => by
    obtain ⟨frames₁, ho, hos⟩ := Option.bind_eq_some_iff.mp h
    exact (shape_scopeOfAll? os hos).trans (shape_scope? o ho)

end

end MiniPascal
