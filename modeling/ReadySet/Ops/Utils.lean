import ReadySet.Data.Key

/-!
Owns the row orders operators are configured with (`Order`): lexicographic over
a list of columns, each ascending or descending. Distinct rows may tie.
-/

namespace ReadySet.Ops

open Data

universe u

inductive OrderType where
  | orderAscending
  | orderDescending
deriving DecidableEq, Repr

/-- `Order`: the columns to compare, with their directions. -/
abbrev Order := List (Nat × OrderType)

variable {V : Type u} [LinearOrder V]

def columnCmp (column : Nat × OrderType) (left right : Row V) : Ordering :=
  match column.2 with
  | .orderAscending => (left.at column.1).cmp (right.at column.1)
  | .orderDescending => (right.at column.1).cmp (left.at column.1)

/-- `Order::cmp`: the first column that differs decides. -/
def Order.cmp : Order → Row V → Row V → Ordering
  | [], _, _ => .eq
  | column :: order, left, right => (columnCmp column left right).then (Order.cmp order left right)

instance columnCmp_transCmp (column : Nat × OrderType) :
    Std.TransCmp (columnCmp (V := V) column) where
  eq_swap {left right} := by
    unfold columnCmp
    split <;> exact Std.OrientedCmp.eq_swap
  isLE_trans {left middle right} := by
    unfold columnCmp
    split
    · exact Std.TransCmp.isLE_trans
    · exact fun below above => Std.TransCmp.isLE_trans above below

instance Order.transCmp (order : Order) : Std.TransCmp (Order.cmp (V := V) order) := by
  induction order with
  | nil => exact { eq_swap := rfl, isLE_trans := fun _ _ => rfl }
  | cons column order ih =>
    exact inferInstanceAs
      (Std.TransCmp (compareLex (columnCmp (V := V) column) (Order.cmp order)))

/-- `left` is not above `right`. -/
def Order.le (order : Order) (left right : Row V) : Prop := (order.cmp left right).isLE = true

instance (order : Order) : DecidableRel (Order.le (V := V) order) :=
  fun left right => inferInstanceAs (Decidable ((order.cmp left right).isLE = true))

instance (order : Order) : IsTrans (Row V) order.le :=
  ⟨fun _ _ _ => Std.TransCmp.isLE_trans⟩

theorem Order.cmp_swap (order : Order) (left right : Row V) :
    order.cmp right left = (order.cmp left right).swap :=
  Std.OrientedCmp.eq_swap

instance (order : Order) : Std.Total (Order.le (V := V) order) := by
  refine ⟨fun left right => ?_⟩
  unfold Order.le
  rw [order.cmp_swap left right]
  cases order.cmp left right <;> simp

end ReadySet.Ops
