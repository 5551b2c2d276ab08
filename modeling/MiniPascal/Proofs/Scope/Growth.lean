import MiniPascal.Scope.Lemmas

/-!
# Growth of the scope table

No operation takes anything back: every block keeps its place, its kind and the block around it, and its variables stay
in front of those that are declared in it later.

* `ScopeTable.Grows`: a table has become another one by operations that take nothing back; `Grows.trans`.
* `grows_openBlock`, `grows_closeBlock`, `grows_of_declare`: the operations.
-/

namespace MiniPascal

/-- A block has become another one by declarations alone. -/
structure Block.Grows (b b' : Block) : Prop where
  kind : b'.kind = b.kind
  parent : b'.parent? = b.parent?
  declared : b.declared <+: b'.declared

theorem Block.Grows.refl (b : Block) : b.Grows b :=
  ⟨rfl, rfl, List.prefix_rfl⟩

theorem Block.Grows.trans {b b' b'' : Block} (h : b.Grows b') (h' : b'.Grows b'') : b.Grows b'' :=
  ⟨h'.kind.trans h.kind, h'.parent.trans h.parent, h.declared.trans h'.declared⟩

theorem Block.grows_add (b : Block) (name : String) (type : DataType) : b.Grows (b.add name type) :=
  ⟨rfl, rfl, List.prefix_append _ _⟩

namespace ScopeTable

variable {t u v : ScopeTable}

/-- Every block of a table is found in a later one in the same place, and it has at most more variables there. -/
def Grows (t u : ScopeTable) : Prop :=
  ∀ (id : Nat) (b : Block), t.blocks[id]? = some b → ∃ b', u.blocks[id]? = some b' ∧ b.Grows b'

theorem Grows.refl (t : ScopeTable) : t.Grows t :=
  fun _ b hb => ⟨b, hb, .refl b⟩

theorem Grows.trans (h : t.Grows u) (h' : u.Grows v) : t.Grows v := by
  intro id b hb
  obtain ⟨b', hb', hgrows⟩ := h id b hb
  obtain ⟨b'', hb'', hgrows'⟩ := h' id b' hb'
  exact ⟨b'', hb'', hgrows.trans hgrows'⟩

theorem grows_openBlock (t : ScopeTable) (kind : BlockKind) (p : Nat) : t.Grows (t.openBlock kind p) := by
  intro id b hb
  have hid := (Array.getElem?_eq_some_iff.mp hb).1
  exact ⟨b, (blocks_openBlock kind hid).trans hb, .refl b⟩

theorem grows_closeBlock (t : ScopeTable) : t.Grows t.closeBlock :=
  .refl t

theorem grows_of_declare {id : Nat} {name : String} {type : DataType} (h : t.declare id name type = .ok u) :
    t.Grows u := by
  intro c b hb
  rw [getElem?_of_declare h, hb]
  split
  case isTrue => exact ⟨b.add name type, rfl, b.grows_add name type⟩
  case isFalse => exact ⟨b, rfl, .refl b⟩

end ScopeTable

end MiniPascal
