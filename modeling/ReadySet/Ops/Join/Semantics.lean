import ReadySet.Ops.Join.Operator

/-!
Owns what a join means: the SQL equi-join of two multisets of rows, with the
padded rows of a left outer join, projected through `emit`.

The contents of a join are a sum of contributions, row by row of either side.
`counts_joined_left` and `counts_equiJoin_right` are these two readings; an
update of one side then changes the contents by the weight of the batch under
that side's contribution.
-/

namespace ReadySet.Ops

open Data Library Dataflow

universe u

variable {V : Type u} [DecidableEq V]

/-- The contents of the two parents. -/
abbrev Tables (V : Type u) := Side → Multiset (Row V)

/-- The rows of a table that a key joins with; a key with a NULL joins with
nothing. -/
def keyMatches (table : Multiset (Row V)) (columns : List Nat) (key : Key V) :
    Multiset (Row V) :=
  if hasNull key then 0 else matching table columns key

namespace JoinConfig

variable (join : JoinConfig)

/-- The join condition: equal keys, none of them with a NULL. -/
def Matches (left right : Row V) : Prop :=
  left.clonedIndices join.onLeft = right.clonedIndices join.onRight ∧
    hasNull (left.clonedIndices join.onLeft) = false

instance (left right : Row V) : Decidable (join.Matches left right) :=
  inferInstanceAs (Decidable (_ ∧ _))

/-- The right rows a left row joins with. -/
def partners (right : Multiset (Row V)) (leftRow : Row V) : Multiset (Row V) :=
  right.filter (join.Matches leftRow)

/-- The inner equi-join, projected through `emit`. -/
def equiJoin (tables : Tables V) : Multiset (Row V) :=
  (tables .left).bind fun leftRow =>
    (join.partners (tables .right) leftRow).map (join.generateRow leftRow)

/-- The left rows without a partner, padded with NULLs. -/
def padding (tables : Tables V) : Multiset (Row V) :=
  ((tables .left).filter fun leftRow => join.partners (tables .right) leftRow = 0).map
    join.generateNull

/-- **The contents of the join**: the equi-join, and for the left kind also the
padded rows. -/
def joined (tables : Tables V) : Multiset (Row V) :=
  match join.kind with
  | .inner => join.equiJoin tables
  | .left => join.equiJoin tables + join.padding tables

/-! ## Contributions of single rows -/

/-- What one left row contributes to the contents. -/
def leftCounts (right : Multiset (Row V)) (leftRow : Row V) : Row V → ℤ :=
  counts ((join.partners right leftRow).map (join.generateRow leftRow)) +
    if join.kind = .left ∧ join.partners right leftRow = 0 then unit (join.generateNull leftRow)
    else 0

/-- What one right row contributes to the equi-join. -/
def rightCounts (left : Multiset (Row V)) (rightRow : Row V) : Row V → ℤ :=
  counts ((left.filter fun leftRow => join.Matches leftRow rightRow).map fun leftRow =>
    join.generateRow leftRow rightRow)

/-- The padded row a left row contributes when it has no partner. -/
def padCounts (right : Multiset (Row V)) (leftRow : Row V) : Row V → ℤ :=
  if join.partners right leftRow = 0 then unit (join.generateNull leftRow) else 0

theorem counts_padding (tables : Tables V) :
    counts (join.padding tables) = ((tables .left).map (join.padCounts (tables .right))).sum := by
  unfold padding padCounts
  rw [counts_map, sum_map_filter]

theorem counts_joined_left (tables : Tables V) :
    counts (join.joined tables) = ((tables .left).map (join.leftCounts (tables .right))).sum := by
  unfold joined leftCounts
  rw [Multiset.sum_map_add, ← counts_bind]
  cases kind : join.kind with
  | inner => simp [equiJoin]
  | left =>
    simp only [true_and, counts_add]
    rw [counts_padding]
    rfl

theorem counts_equiJoin_right (tables : Tables V) :
    counts (join.equiJoin tables) =
      ((tables .right).map (join.rightCounts (tables .left))).sum := by
  have left : counts (join.equiJoin tables) =
      ((tables .left).map fun leftRow => ((tables .right).map fun rightRow =>
        if join.Matches leftRow rightRow then unit (join.generateRow leftRow rightRow)
        else 0).sum).sum := by
    unfold equiJoin partners
    rw [counts_bind]
    simp [counts_map, sum_map_filter]
  have right : ((tables .right).map (join.rightCounts (tables .left))).sum =
      ((tables .right).map fun rightRow => ((tables .left).map fun leftRow =>
        if join.Matches leftRow rightRow then unit (join.generateRow leftRow rightRow)
        else 0).sum).sum := by
    unfold rightCounts
    simp [counts_map, sum_map_filter]
  rw [left, right]
  exact Multiset.sum_map_sum_map _ _

/-! ## Lookups by key -/

theorem partners_eq_keyMatches (right : Multiset (Row V)) (leftRow : Row V) :
    join.partners right leftRow =
      keyMatches right join.onRight (leftRow.clonedIndices join.onLeft) := by
  unfold partners keyMatches matching
  by_cases nulls : hasNull (leftRow.clonedIndices join.onLeft) = true
  · rw [if_pos nulls]
    refine Multiset.filter_eq_nil.mpr ?_
    rintro row _ ⟨_, noNull⟩
    rw [nulls] at noNull
    contradiction
  · rw [if_neg nulls]
    refine Multiset.filter_congr fun row _ => ⟨fun both => both.1.symm, fun same => ⟨same.symm, ?_⟩⟩
    simpa using nulls

theorem filter_matches_eq_keyMatches (left : Multiset (Row V)) (rightRow : Row V) :
    (left.filter fun leftRow => join.Matches leftRow rightRow) =
      keyMatches left join.onLeft (rightRow.clonedIndices join.onRight) := by
  unfold keyMatches matching
  by_cases nulls : hasNull (rightRow.clonedIndices join.onRight) = true
  · rw [if_pos nulls]
    refine Multiset.filter_eq_nil.mpr ?_
    rintro row _ ⟨same, noNull⟩
    rw [same, nulls] at noNull
    contradiction
  · rw [if_neg nulls]
    refine Multiset.filter_congr fun row _ => ⟨fun both => both.1, fun same => ⟨same, ?_⟩⟩
    rw [same]
    simpa using nulls

end JoinConfig

end ReadySet.Ops
