import Mathlib

/-!
Owns the values and rows the dataflow operators read. A `DfValue` is either
SQL NULL (`None` in the source) or a value of a linearly ordered domain `V`;
values that `DfValue::eq` identifies are one value here, and `V`'s order is
the one `DfValue::cmp` gives the values of one column.

Does not own the source's comparison of values of different kinds.
-/

namespace ReadySet.Data

universe u

/-- A SQL value; `none` is NULL. -/
inductive DfValue (V : Type u) where
  | none
  | value (datum : V)
deriving DecidableEq, Repr

namespace DfValue

variable {V : Type u} {cell : DfValue V}

def isNone : DfValue V → Bool
  | .none => true
  | .value _ => false

@[simp] theorem isNone_none : (DfValue.none : DfValue V).isNone = true := rfl
@[simp] theorem isNone_value (datum : V) : (DfValue.value datum).isNone = false := rfl

theorem isNone_iff : cell.isNone = true ↔ cell = .none := by
  cases cell <;> simp

/-- NULL is the least kind, so it sorts before every other value. -/
def toWithBot : DfValue V → WithBot V
  | .none => ⊥
  | .value datum => (datum : WithBot V)

theorem toWithBot_injective : Function.Injective (toWithBot : DfValue V → WithBot V) := by
  intro left right same
  cases left <;> cases right <;> simp_all [toWithBot]

section

variable [LinearOrder V] {left right : V}

instance : LE (DfValue V) := ⟨fun left right => left.toWithBot ≤ right.toWithBot⟩
instance : LT (DfValue V) := ⟨fun left right => left.toWithBot < right.toWithBot⟩

/-- `DfValue::cmp` on the values of one column. -/
def cmp : DfValue V → DfValue V → Ordering
  | .none, .none => .eq
  | .none, .value _ => .lt
  | .value _, .none => .gt
  | .value left, .value right => compare left right

theorem le_none_iff : cell ≤ .none ↔ cell = .none := by
  cases cell with
  | none => exact ⟨fun _ => rfl, fun _ => le_refl (⊥ : WithBot V)⟩
  | value datum =>
    change ((datum : WithBot V) ≤ ⊥) ↔ _
    simp

theorem none_le (cell : DfValue V) : .none ≤ cell := (bot_le : ⊥ ≤ cell.toWithBot)

theorem value_le_value : DfValue.value left ≤ DfValue.value right ↔ left ≤ right :=
  WithBot.coe_le_coe

theorem value_lt_value : DfValue.value left < DfValue.value right ↔ left < right :=
  WithBot.coe_lt_coe

instance decidableLE : DecidableRel (fun left right : DfValue V => left ≤ right)
  | .none, right => isTrue (none_le right)
  | .value _, .none => isFalse fun below => by simpa using le_none_iff.mp below
  | .value left, .value right => decidable_of_iff (left ≤ right) value_le_value.symm

instance instLinearOrder : LinearOrder (DfValue V) where
  le_refl cell := le_refl cell.toWithBot
  le_trans first second third below above :=
    @le_trans (WithBot V) _ first.toWithBot second.toWithBot third.toWithBot below above
  lt_iff_le_not_ge left right :=
    @lt_iff_le_not_ge (WithBot V) _ left.toWithBot right.toWithBot
  le_antisymm left right below above :=
    toWithBot_injective (@le_antisymm (WithBot V) _ left.toWithBot right.toWithBot below above)
  le_total left right := le_total left.toWithBot right.toWithBot
  toDecidableLE := decidableLE
  toDecidableEq := inferInstance

theorem cmp_eq_compare (left right : DfValue V) : left.cmp right = compare left right := by
  cases left with
  | none =>
    cases right with
    | none => exact (compare_eq_iff_eq.mpr rfl).symm
    | value right =>
      refine (compare_lt_iff_lt.mpr ?_).symm
      exact WithBot.bot_lt_coe right
  | value left =>
    cases right with
    | none => exact (compare_gt_iff_gt.mpr (WithBot.bot_lt_coe left)).symm
    | value right =>
      rcases lt_trichotomy left right with below | rfl | above
      · rw [compare_lt_iff_lt.mpr (value_lt_value.mpr below)]
        exact compare_lt_iff_lt.mpr below
      · rw [compare_eq_iff_eq.mpr rfl]
        exact compare_eq_iff_eq.mpr rfl
      · rw [compare_gt_iff_gt.mpr (value_lt_value.mpr above)]
        exact compare_gt_iff_gt.mpr above

end

end DfValue

/-! ## Rows -/

variable {V : Type u}

/-- A row as the operators pass it around. -/
abbrev Row (V : Type u) := List (DfValue V)

/-- `row[column]`. The source panics past the end of a row; every column an
operator reads is below the row length there, and here such a read is NULL. -/
def Row.at (row : Row V) (column : Nat) : DfValue V := row.getD column .none

/-- `row.cloned_indices(columns)`. -/
def Row.clonedIndices (row : Row V) (columns : List Nat) : List (DfValue V) :=
  columns.map row.at

@[simp] theorem Row.length_clonedIndices (row : Row V) (cols : List Nat) :
    (row.clonedIndices cols).length = cols.length := by
  simp [Row.clonedIndices]

/-- Whether some value of a key is NULL. -/
def hasNull (key : List (DfValue V)) : Bool := key.any DfValue.isNone

end ReadySet.Data
