import ReadySet.Ops.Grouped.Runs

/-!
Owns the numerical aggregations (`Aggregator`): counts, sums and averages, as
the source folds them over a group's diffs, and what counts and sums amount to
over batches when the arithmetic is exact.

An average keeps its own count and sum for each group hash; those live in the
operation's cache. Does not own what averages amount to.
-/

namespace ReadySet.Ops.Grouped

open Data Library Dataflow

universe u

inductive Aggregation where
  | count
  | sum
  | avg
  | groupConcat (separator : String)
deriving DecidableEq, Repr

/-- The output types that `Aggregator::new_data` tells apart. -/
inductive OutType where
  | bigInt
  | double
  | numeric
  | text
  | other
deriving DecidableEq, Repr

structure NumericalDiff (V : Type u) where
  value : DfValue V
  positive : Bool
  groupHash : Nat

structure AverageDataPair (V : Type u) where
  count : DfValue V
  sum : DfValue V

abbrev CountSumMap (V : Type u) := Nat → Option (AverageDataPair V)

structure Aggregator where
  op : Aggregation
  overColumn : Nat
  group : List Nat
  outTy : OutType
deriving DecidableEq, Repr

/-- `Aggregation::over`: sums and averages of floats are doubles, others exact
decimals. -/
def Aggregation.over_ (op : Aggregation) (overColumn : Nat) (group : List Nat)
    (overIsFloat : Bool) : Aggregator where
  op := op
  overColumn := overColumn
  group := group
  outTy :=
    match op with
    | .count => .bigInt
    | .sum => if overIsFloat then .double else .numeric
    | .avg => if overIsFloat then .double else .numeric
    | .groupConcat _ => .text

namespace Aggregator

variable {V : Type u} [LinearOrder V] (aggregator : Aggregator) (arith : Arithmetic V)
  (hash : Key V → Nat)

/-- `AverageDataPair::apply_diff`. -/
def applyAverage (pair : AverageDataPair V) (diff : NumericalDiff V) :
    ReadySetResult (DfValue V × AverageDataPair V) := do
  let pair ←
    if diff.positive then do
      let sum ← arith.add pair.sum diff.value
      let count ← arith.add pair.count (.value (arith.int 1))
      pure { count, sum }
    else do
      let sum ← arith.sub pair.sum diff.value
      let count ← arith.sub pair.count (.value (arith.int 1))
      pure { count, sum }
  if DfValue.value (arith.int 0) < pair.count then do
    let average ← arith.div pair.sum pair.count
    return (average, pair)
  else return (.value arith.doubleZero, pair)

def newData : ReadySetResult (DfValue V) :=
  match aggregator.outTy with
  | .bigInt => .ok (.value (arith.int 0))
  | .double => .ok (.value arith.doubleZero)
  | .numeric => .ok (.value arith.numericZero)
  | .text => .ok (.value arith.emptyText)
  | .other => .error (.internal "Internal error")

def toDiff (row : Row V) (positive : Bool) : NumericalDiff V where
  value := row.at aggregator.overColumn
  positive := positive
  groupHash := hash (row.clonedIndices aggregator.group)

/-- `apply_diff` in `Aggregator::apply`; NULL values do not count. -/
def applyDiff (state : DfValue V × CountSumMap V) (diff : NumericalDiff V) :
    ReadySetResult (DfValue V × CountSumMap V) :=
  let (current, cache) := state
  if diff.value.isNone then .ok (current, cache)
  else
    match aggregator.op with
    | .count => do
        let next ← if diff.positive then arith.add current (.value (arith.int 1))
          else arith.sub current (.value (arith.int 1))
        return (next, cache)
    | .sum => do
        let next ← if diff.positive then arith.add current diff.value
          else arith.sub current diff.value
        return (next, cache)
    | .avg => do
        let pair := (cache diff.groupHash).getD
          { sum := .value arith.doubleZero, count := .value (arith.int 0) }
        let (average, pair) ← applyAverage arith pair diff
        return (average, Function.update cache diff.groupHash (some pair))
    | .groupConcat _ => .error (.internal
        "GroupConcats are separate from the other aggregations in the dataflow.")

def apply (cache : CountSumMap V) (current : Option (DfValue V)) (diffs : List (NumericalDiff V)) :
    ReadySetResult (Option (DfValue V) × CountSumMap V) := do
  let blank ← aggregator.newData arith
  let (new, cache) ← diffs.foldlM (aggregator.applyDiff arith) (current.getD blank, cache)
  return (some new, cache)

def operation : GroupedOperation V (CountSumMap V) (NumericalDiff V) where
  groupBy := aggregator.group
  toDiff row positive := .ok (aggregator.toDiff hash row positive)
  apply := aggregator.apply arith
  emptyValue := if aggregator.op = .count then some (.value (arith.int 0)) else none
  emitEmpty :=
    match aggregator.op with
    | .count => aggregator.group.isEmpty
    | .groupConcat _ => aggregator.group.isEmpty
    | _ => false

def operator (src us : LocalNodeIndex) (nonempty : aggregator.group ≠ []) :
    GroupedOperator V (CountSumMap V) (NumericalDiff V) where
  src := src
  us := us
  inner := aggregator.operation arith hash
  nonempty := nonempty

/-! ## Accumulation -/

section

variable {G : Type*} [AddCommGroup G]

/-- The aggregator accumulates, in values that represent elements of a group,
a contribution of each row it is fed. -/
structure Accumulates (contribution : Row V → G) (represent : G → DfValue V)
    (allowed : Row V → Prop) : Prop where
  blank : aggregator.newData arith = .ok (represent 0)
  step : ∀ sum cache (record : Record V), allowed record.value →
    aggregator.applyDiff arith (represent sum, cache)
        (aggregator.toDiff hash record.value record.isPositive) =
      .ok (represent (sum + record.sign • contribution record.value), cache)

variable {aggregator arith hash} {contribution : Row V → G} {represent : G → DfValue V}
  {allowed : Row V → Prop}
  (accumulates : aggregator.Accumulates arith hash contribution represent allowed)
include accumulates

section

variable (records : List (Record V)) (isAllowed : ∀ record ∈ records, allowed record.value)

include isAllowed

theorem Accumulates.foldlM (sum : G) (cache : CountSumMap V) :
    (records.map fun record => aggregator.toDiff hash record.value record.isPositive).foldlM
        (aggregator.applyDiff arith) (represent sum, cache) =
      .ok (represent (sum + weight contribution records), cache) := by
  induction records generalizing sum with
  | nil => simp
  | cons record records ih =>
    have later := ih (fun other mem => isAllowed other (by simp [mem]))
      (sum + record.sign • contribution record.value)
    rw [List.map_cons, List.foldlM_cons, accumulates.step sum cache record
      (isAllowed record (by simp)), weight_cons, ← add_assoc]
    exact later

theorem Accumulates.apply {cur : Option (DfValue V)} {sum : G}
    (isCurrent : cur.getD (represent 0) = represent sum) (cache : CountSumMap V) :
    aggregator.apply arith cache cur
        (records.map fun record => aggregator.toDiff hash record.value record.isPositive) =
      .ok (some (represent (sum + weight contribution records)), cache) := by
  have folded := accumulates.foldlM records isAllowed sum cache
  simp [Aggregator.apply, accumulates.blank, isCurrent, folded]

end

/-- An accumulating aggregator computes the aggregates that represent the total
contributions of the groups. -/
theorem Accumulates.computes {src us : LocalNodeIndex} (nonempty : aggregator.group ≠ [])
    {replay : ReplayContext V} {nodes : DomainNodes V} {states : StateMap V}
    {before after : Multiset (Row V)} {batch : List (Record V)}
    (valid : applyAll before batch = some after)
    (isAllowed : ∀ record ∈ batch, allowed record.value) (key : Key V) :
    (aggregator.operator arith hash src us nonempty).Computes
      (fun rows => represent (rows.map contribution).sum) replay nodes states before after batch
      (fun record => aggregator.toDiff hash record.value record.isPositive) key := by
  set op := aggregator.operator arith hash src us nonempty
  intro cache
  have cur : (op.held (fun rows => represent (rows.map contribution).sum) before key).getD
      (represent 0) = represent ((op.group before key).map contribution).sum := by
    rw [GroupedOperator.held]
    split
    case isTrue none => simp [none]
    case isFalse => rfl
  have inBatch : ∀ record ∈ op.groupRecords batch key, allowed record.value :=
    fun record mem => isAllowed record (List.mem_filter.mp mem).1
  have applied : op.inner.apply cache _ _ = _ := accumulates.apply _ inBatch cur cache
  have total : ((op.group after key).map contribution).sum =
      ((op.group before key).map contribution).sum +
        weight contribution (op.groupRecords batch key) :=
    total_applyAll contribution (GroupedOperator.applyAll_group valid key)
  refine ⟨represent ((op.group after key).map contribution).sum, [], cache, ?_, fun _ => rfl⟩
  rw [total]
  simp [GroupedOperator.newValue, applied]

omit accumulates

end

/-! ## Counts and sums -/

variable {arith hash} {overColumn : Nat} {group : List Nat} {overIsFloat : Bool}

/-- What a row adds to a count. -/
def countContribution (overColumn : Nat) (row : Row V) : ℤ :=
  if (row.at overColumn).isNone then 0 else 1

theorem count_accumulates (exact_ : arith.Exact) :
    (Aggregation.count.over_ overColumn group overIsFloat).Accumulates arith hash
      (countContribution overColumn) (fun sum => .value (arith.int sum)) (fun _ => True) where
  blank := rfl
  step sum cache record _ := by
    cases isNull : (record.value.at overColumn).isNone with
    | true => simp [applyDiff, toDiff, Aggregation.over_, countContribution, isNull]
    | false =>
      cases record with
      | positive row | negative row =>
        simp only [Signed.value_positive, Signed.value_negative] at isNull
        simp [applyDiff, toDiff, Aggregation.over_, countContribution, isNull, exact_.add_int,
          exact_.sub_int, sub_eq_add_neg]

/-- What a row adds to a sum. -/
def sumContribution (number : V → Option ℚ) (overColumn : Nat) (row : Row V) : ℚ :=
  match row.at overColumn with
  | .none => 0
  | .value datum => (number datum).getD 0

/-- The values of a row's column are numbers, or NULL. -/
def IsNumeric (number : V → Option ℚ) (overColumn : Nat) (row : Row V) : Prop :=
  ∀ datum, row.at overColumn = .value datum → (number datum).isSome

def sumZero (arith : Arithmetic V) (overIsFloat : Bool) : V :=
  if overIsFloat then arith.doubleZero else arith.numericZero

theorem sum_accumulates {number : V → Option ℚ} {total : ℚ → V}
    (sums : arith.ExactSums (sumZero arith overIsFloat) number total) :
    (Aggregation.sum.over_ overColumn group overIsFloat).Accumulates arith hash
      (sumContribution number overColumn) (fun sum => .value (total sum))
      (IsNumeric number overColumn) where
  blank := by
    cases overIsFloat <;> simp [newData, Aggregation.over_, sums.total_zero, sumZero]
  step sum cache record numeric := by
    cases datum : record.value.at overColumn with
    | none => simp [applyDiff, toDiff, Aggregation.over_, sumContribution, datum]
    | value datum' =>
      obtain ⟨amount, isAmount⟩ := Option.isSome_iff_exists.mp (numeric datum' datum)
      cases record with
      | positive row | negative row =>
        simp only [Signed.value_positive, Signed.value_negative] at datum
        simp [applyDiff, toDiff, Aggregation.over_, sumContribution, datum, isAmount,
          sums.add_number sum datum' amount isAmount, sums.sub_number sum datum' amount isAmount,
          sub_eq_add_neg]

/-- The count or sum of the non-NULL values of a group. -/
def aggregateOf (aggregation : Aggregation) (arith : Arithmetic V) (number : V → Option ℚ)
    (total : ℚ → V) (overColumn : Nat) (rows : Multiset (Row V)) : DfValue V :=
  if aggregation = .count then
    .value (arith.int (rows.countP fun row => ¬ (row.at overColumn).isNone = true))
  else .value (total (rows.map (sumContribution number overColumn)).sum)

omit [LinearOrder V] in
theorem sum_countContribution (rows : Multiset (Row V)) :
    (rows.map (countContribution overColumn)).sum =
      (rows.countP fun row => ¬ (row.at overColumn).isNone = true : ℕ) := by
  induction rows using Multiset.induction_on with
  | empty => simp
  | cons row rows ih =>
    by_cases isNull : (row.at overColumn).isNone = true
    · simp [ih, countContribution, isNull]
    · simp [ih, countContribution, isNull, add_comm]

/-- **A batch through a count or sum.** The emitted records take the summary of
the parent before the batch to the summary of the parent after it, revoke rows
of the own contents only, and are about touched groups only. -/
theorem onInput_summarizes {aggregation : Aggregation} {number : V → Option ℚ} {total : ℚ → V}
    (supported : aggregation = .count ∨ aggregation = .sum) (exact_ : arith.Exact)
    (sums : aggregation = .sum →
      arith.ExactSums (sumZero arith overIsFloat) number total)
    (src us : LocalNodeIndex) (nonempty : group ≠ []) {states : StateMap V} {ownState : State V}
    {own before after : Multiset (Row V)} {batch : List (Record V)}
    (numeric : aggregation = .sum → ∀ record ∈ batch, IsNumeric number overColumn record.value)
    (update : ((aggregation.over_ overColumn group overIsFloat).operator arith hash src us
      nonempty).Update arith (aggregateOf aggregation arith number total overColumn)
        states ownState own before after batch)
    (replay : ReplayContext V) (nodes : DomainNodes V) (cache : CountSumMap V) :
    let op := (aggregation.over_ overColumn group overIsFloat).operator arith hash src us
      nonempty
    ∃ result next settled,
      op.onInput arith cache batch replay nodes states = .ok (result, next) ∧
      result.misses = [] ∧ applyAll own result.results = some settled ∧
      op.Summarizes arith (aggregateOf aggregation arith number total overColumn)
        settled after ∧
      (∀ row, Signed.negative row ∈ result.results → row ∈ own) ∧
      ∀ record ∈ result.results,
        op.groupRecords batch (record.value.clonedIndices op.outKey) ≠ [] := by
  rcases supported with rfl | rfl
  · have counts : aggregateOf .count arith number total overColumn = fun rows =>
        .value (arith.int (rows.map (countContribution overColumn)).sum) := by
      funext rows
      rw [sum_countContribution]
      rfl
    have noEmpty : group.isEmpty = false := by simpa using nonempty
    rw [counts] at update ⊢
    exact GroupedOperator.onInput_spec exact_ noEmpty update (fun _ _ => rfl)
      (fun key _ => (count_accumulates exact_).computes nonempty update.valid (by simp) key) cache
  · exact GroupedOperator.onInput_spec exact_ rfl update (fun _ _ => rfl)
      (fun key _ => (sum_accumulates (sums rfl)).computes nonempty update.valid (numeric rfl) key)
      cache

/-! ## A row of a group with a NULL, revoked -/

theorem integers_exactSums : Arithmetic.integers.ExactSums (sumZero Arithmetic.integers false)
    (fun datum => some (datum : ℚ)) Int.floor where
  total_zero := rfl
  add_number sum summand amount isAmount := by
    obtain rfl := Option.some.inj isAmount
    simp [Arithmetic.integers]
  sub_number sum summand amount isAmount := by
    obtain rfl := Option.some.inj isAmount
    simp [Arithmetic.integers]

/-- The sum 5 of the two rows of group 1, one of which is NULL. -/
def heldSums : List (Row ℤ) := [[.value 1, .value 5, .value 2]]

def parentBefore : Multiset (Row ℤ) := {[.value 1, .value 5], [.value 1, .none]}

def revokingBatch : List (Record ℤ) :=
  [.negative [.value 1, .value 5], .positive [.value 2, .value 7]]

theorem revokingUpdate :
    ((Aggregation.sum.over_ 1 [0] false).operator .integers (fun _ => 0) 0 1 (by decide)).Update
      .integers (aggregateOf .sum .integers (fun datum => some (datum : ℚ)) Int.floor 1)
      (fun _ => some (State.ofTable heldSums)) (State.ofTable heldSums) heldSums parentBefore
      {[.value 1, .none], [.value 2, .value 7]} revokingBatch where
  ownHere := rfl
  ownFull := State.ofTable_fullOn heldSums _
  summarizes key := by
    change matching _ [0] key = if matching parentBefore [0] key = 0 then 0 else _
    by_cases same : key = [.value 1]
    · subst same
      have group : matching parentBefore [0] [.value 1] = parentBefore := by decide
      have total :
          (parentBefore.map (sumContribution (fun datum : ℤ => some (datum : ℚ)) 1)).sum = 5 := by
        simp [parentBefore, sumContribution, Row.at]
      have aggregate : aggregateOf .sum .integers (fun datum => some (datum : ℚ)) Int.floor 1
          parentBefore = .value 5 := by
        simp [aggregateOf, total]
      rw [if_neg (by decide)]
      change _ = {GroupedOperator.summaryRow _ _ _ (matching parentBefore [0] [.value 1])}
      rw [group, GroupedOperator.summaryRow, aggregate]
      decide
    · have alone (row : Row ℤ) (first : row.clonedIndices [0] = [.value 1]) :
          row.clonedIndices [0] ≠ key := fun equal => same (equal.symm.trans first)
      have noRow : matching parentBefore [0] key = 0 :=
        Multiset.filter_eq_nil.2 fun row mem => alone row (by revert row; decide)
      rw [if_pos noRow]
      exact Multiset.filter_eq_nil.2 fun row mem => alone row (by revert row; decide)
  valid := by decide

theorem onInput_summarizes_revokingBatch :
    let op := (Aggregation.sum.over_ 1 [0] false).operator .integers (fun _ => 0) 0 1 (by decide)
    ∃ result next settled,
      op.onInput .integers (fun _ => none) revokingBatch .none .none
        (fun _ => some (State.ofTable heldSums)) = .ok (result, next) ∧
      result.misses = [] ∧ applyAll heldSums result.results = some settled ∧
      op.Summarizes .integers
        (aggregateOf .sum .integers (fun datum => some (datum : ℚ)) Int.floor 1) settled
        {[.value 1, .none], [.value 2, .value 7]} ∧
      (∀ row, Signed.negative row ∈ result.results → row ∈ (heldSums : Multiset (Row ℤ))) ∧
      ∀ record ∈ result.results,
        op.groupRecords revokingBatch (record.value.clonedIndices op.outKey) ≠ [] :=
  onInput_summarizes (.inr rfl) Arithmetic.integers_exact (fun _ => integers_exactSums) 0 1
    (by decide) (fun _ _ _ _ _ => rfl) revokingUpdate .none .none fun _ => none

/-! ## Whole runs -/

open GroupedOperator in
/-- **Counts and sums over whole runs.** Whatever valid batches arrive, the own
contents hold the counts or sums of the parent's groups. -/
theorem run_holdsAggregates {aggregation : Aggregation} {number : V → Option ℚ} {total : ℚ → V}
    (supported : aggregation = .count ∨ aggregation = .sum) (exact_ : arith.Exact)
    (sums : aggregation = .sum → arith.ExactSums (sumZero arith overIsFloat) number total)
    {src us : LocalNodeIndex} (nonempty : group ≠ []) {nodes : DomainNodes V}
    {batches : List (List (Record V))} (valid : (applyAll 0 batches.flatten).isSome)
    (numeric : aggregation = .sum →
      ∀ batch ∈ batches, ∀ record ∈ batch, IsNumeric number overColumn record.value)
    {materialize : Materialization V} (cache : CountSumMap V) :
    let op := (aggregation.over_ overColumn group overIsFloat).operator arith hash src us nonempty
    (∀ batches own parent, op.Materializes (materialize batches own parent) own parent) →
    ∃ trace final, run (World.feed op arith nodes materialize) { cache } batches =
        .ok (trace, final) ∧
      trace.map Prod.fst = batches ∧ final.parent = tableAfter batches ∧
      op.Summarizes arith (aggregateOf aggregation arith number total overColumn)
        final.own final.parent := by
  intro op materializes
  have applied := everyStep_valid valid
  rcases supported with rfl | rfl
  · have counts : aggregateOf .count arith number total overColumn = fun rows =>
        .value (arith.int (rows.map (countContribution overColumn)).sum) := by
      funext rows
      rw [sum_countContribution]
      rfl
    have noEmpty : group.isEmpty = false := by simpa using nonempty
    rw [counts]
    refine run_summarizes exact_ noEmpty materializes (fun _ => rfl) valid ?_ cache
    intro earlier batch later split states own _ key _
    exact (count_accumulates exact_).computes nonempty (applied earlier batch later split)
      (by simp) key
  · refine run_summarizes exact_ rfl materializes (fun _ => rfl) valid ?_ cache
    intro earlier batch later split states own _ key _
    exact (sum_accumulates (sums rfl)).computes nonempty (applied earlier batch later split)
      (numeric rfl batch (by simp [split])) key

/-- A batch and one that revokes a row of it. -/
def sumBatches : List (List (Record ℤ)) :=
  [[.positive [.value 1, .value 5], .positive [.value 1, .none]], revokingBatch]

theorem run_holdsAggregates_sumBatches :
    let op := (Aggregation.sum.over_ 1 [0] false).operator .integers (fun _ => 0) 0 1 (by decide)
    ∃ trace final, run (GroupedOperator.World.feed op .integers .none op.holdBoth)
        { cache := fun _ => none } sumBatches = .ok (trace, final) ∧
      trace.map Prod.fst = sumBatches ∧ final.parent = GroupedOperator.tableAfter sumBatches ∧
      op.Summarizes .integers
        (aggregateOf .sum .integers (fun datum => some (datum : ℚ)) Int.floor 1)
        final.own final.parent :=
  run_holdsAggregates (.inr rfl) Arithmetic.integers_exact (fun _ => integers_exactSums)
    (by decide) (by decide) (fun _ _ _ _ _ _ _ => rfl) _
    (GroupedOperator.holdBoth_materializes (by decide))

end Aggregator

end ReadySet.Ops.Grouped
