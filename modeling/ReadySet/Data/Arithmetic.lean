import Mathlib.Algebra.Order.Ring.Rat
import ReadySet.Dataflow.Processing

/-!
Owns what the operators take from `DfValue`'s arithmetic, as a parameter: the
integers among the values, the zeros of the numeric types, and the operations.
`Arithmetic.Exact` and `Arithmetic.ExactSums` say that they neither overflow
nor round, for integers and for the sums of one output type.
-/

namespace ReadySet.Data

open Dataflow

universe u

structure Arithmetic (V : Type u) where
  /-- `DfValue::Int`. -/
  int : ℤ → V
  /-- `i64::try_from`. -/
  toInt : V → Option ℤ
  /-- `DfValue::Double(0.0)`. -/
  doubleZero : V
  /-- `DfValue::Numeric(0)`. -/
  numericZero : V
  /-- The empty text. -/
  emptyText : V
  add : DfValue V → DfValue V → ReadySetResult (DfValue V)
  sub : DfValue V → DfValue V → ReadySetResult (DfValue V)
  div : DfValue V → DfValue V → ReadySetResult (DfValue V)

namespace Arithmetic

variable {V : Type u} (arith : Arithmetic V)

/-- `i64::try_from` on a value that may be NULL. -/
def toInt? : DfValue V → Option ℤ
  | .none => none
  | .value datum => arith.toInt datum

/-- Integer arithmetic does not overflow. -/
structure Exact : Prop where
  toInt_int : ∀ number, arith.toInt (arith.int number) = some number
  add_int : ∀ left right, arith.add (.value (arith.int left))
    (.value (arith.int right)) = .ok (.value (arith.int (left + right)))
  sub_int : ∀ left right, arith.sub (.value (arith.int left))
    (.value (arith.int right)) = .ok (.value (arith.int (left - right)))

/-- Sums that start from a zero are exact: `total q` is the value of a sum with
numeric value `q`, and `number` the numeric value of a summand. -/
structure ExactSums (zero : V) (number : V → Option ℚ) (total : ℚ → V) : Prop where
  total_zero : total 0 = zero
  add_number : ∀ sum summand amount, number summand = some amount →
    arith.add (.value (total sum)) (.value summand) = .ok (.value (total (sum + amount)))
  sub_number : ∀ sum summand amount, number summand = some amount →
    arith.sub (.value (total sum)) (.value summand) = .ok (.value (total (sum - amount)))

/-! ## Integers -/

def integers : Arithmetic ℤ where
  int number := number
  toInt datum := some datum
  doubleZero := 0
  numericZero := 0
  emptyText := 0
  add
    | .value left, .value right => .ok (.value (left + right))
    | _, _ => .ok .none
  sub
    | .value left, .value right => .ok (.value (left - right))
    | _, _ => .ok .none
  div
    | .value left, .value right => .ok (.value (left / right))
    | _, _ => .ok .none

theorem integers_exact : integers.Exact where
  toInt_int _ := rfl
  add_int _ _ := rfl
  sub_int _ _ := rfl

end Arithmetic

end ReadySet.Data
