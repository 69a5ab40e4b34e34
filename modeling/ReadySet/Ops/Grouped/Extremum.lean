import ReadySet.Library.Heap
import ReadySet.Ops.Grouped.Runs

/-!
Owns the extremum operation (`ExtremumOperator`) and what it amounts to over
whole runs. It keeps the current extreme only: from a batch it collects the
values at least as extreme as that one, and it asks for a recomputation when
none of these is left.

The collected candidates are the group's values at least as extreme as the
current one, save that they hold one copy of the current value where the group
may hold more (`Candidates`). For a minimum that starts from NULL this is of no
use, since no value lies below NULL; `StaysNull` excludes that step.
-/

namespace ReadySet.Ops.Grouped

open Data Library Dataflow Multiset

universe u

inductive Extremum where
  | min
  | max
deriving DecidableEq, Repr

structure ExtremumOperator where
  op : Extremum
  overColumn : Nat
  group : List Nat
deriving DecidableEq, Repr

inductive DiffType (V : Type u) where
  | insert (cell : DfValue V)
  | remove (cell : DfValue V)
  | none

namespace Extremum

variable {V : Type u} [LinearOrder V] (op : Extremum) {values : List (DfValue V)}

def AsExtreme (left right : DfValue V) : Prop :=
  match op with
  | .max => right ≤ left
  | .min => left ≤ right

instance (left right : DfValue V) : Decidable (op.AsExtreme left right) := by
  cases op <;> simp only [AsExtreme] <;> infer_instance

def extreme (values : List (DfValue V)) : Option (DfValue V) :=
  match op with
  | .min => values.min?
  | .max => values.max?

theorem asExtreme_refl (cell : DfValue V) : op.AsExtreme cell cell := by
  cases op <;> exact le_refl cell

theorem asExtreme_trans {first second third : DfValue V} (above : op.AsExtreme first second)
    (below : op.AsExtreme second third) : op.AsExtreme first third := by
  cases op with
  | min => exact @le_trans (DfValue V) _ first second third above below
  | max => exact @le_trans (DfValue V) _ third second first below above

theorem asExtreme_antisymm {left right : DfValue V} (above : op.AsExtreme left right)
    (below : op.AsExtreme right left) : left = right := by
  cases op with
  | min => exact @le_antisymm (DfValue V) _ left right above below
  | max => exact @le_antisymm (DfValue V) _ left right below above

theorem asExtreme_total (left right : DfValue V) :
    op.AsExtreme left right ∨ op.AsExtreme right left := by
  cases op with
  | min => exact le_total left right
  | max => exact le_total right left

theorem extreme_eq_some_iff {best : DfValue V} :
    op.extreme values = some best ↔ best ∈ values ∧ ∀ other ∈ values, op.AsExtreme best other := by
  cases op with
  | min => exact List.min?_eq_some_iff
  | max => exact List.max?_eq_some_iff

theorem extreme_eq_none_iff : op.extreme values = none ↔ values = [] := by
  cases op with
  | min => exact List.min?_eq_none_iff
  | max => exact List.max?_eq_none_iff

end Extremum

namespace ExtremumOperator

variable {V : Type u} [LinearOrder V] (operator : ExtremumOperator)

def toDiff (row : Row V) (positive : Bool) : DiffType V :=
  let cell := row.at operator.overColumn
  if cell.isNone then .none
  else if positive then .insert cell
  else .remove cell

def isExtremeValue (current : Option (DfValue V)) (cell : DfValue V) : Bool :=
  match current with
  | some bound => operator.op.AsExtreme cell bound
  | none => true

/-- One diff of the loop in `apply`. -/
def onDiff (current : Option (DfValue V)) (extremeValues : List (DfValue V)) :
    DiffType V → List (DfValue V)
  | .insert cell =>
    if operator.isExtremeValue current cell then extremeValues ++ [cell] else extremeValues
  | .remove cell =>
    if operator.isExtremeValue current cell then
      swapRemoveFirst extremeValues cell
    else extremeValues
  | .none => extremeValues

def apply (current : Option (DfValue V)) (diffs : List (DiffType V)) : Option (DfValue V) :=
  operator.op.extreme (diffs.foldl (operator.onDiff current) current.toList)

/-- The extremum as a grouped operation; it keeps nothing between calls. -/
def operation : GroupedOperation V PUnit (DiffType V) where
  groupBy := operator.group
  toDiff row positive := .ok (operator.toDiff row positive)
  apply cache current diffs := .ok (operator.apply current diffs, cache)

def node (src us : LocalNodeIndex) (nonempty : operator.group ≠ []) :
    GroupedOperator V PUnit (DiffType V) where
  src := src
  us := us
  inner := operator.operation
  nonempty := nonempty

/-! ## The extremum of a group -/

/-- The non-NULL values of a group. -/
def values (rows : Multiset (Row V)) : Multiset (DfValue V) :=
  (rows.map fun row => row.at operator.overColumn).filter fun cell => ¬ cell.isNone = true

/-- The minimum or maximum of a group's non-NULL values; NULL if it has none. -/
def extremum (rows : Multiset (Row V)) : DfValue V :=
  (operator.op.extreme (ascending (operator.values rows))).getD .none

/-- A value that is the most extreme of some values. -/
def Best (cells : Multiset (DfValue V)) (best : DfValue V) : Prop :=
  best ∈ cells ∧ ∀ other ∈ cells, operator.op.AsExtreme best other

variable {operator} {rows : Multiset (Row V)} {after : Multiset (Row V)} {row : Row V}

section

omit [LinearOrder V]

theorem ne_none_of_mem_values {cell : DfValue V}
    (mem : cell ∈ operator.values rows) : cell ≠ .none := by
  rintro rfl
  simpa using (mem_filter.mp mem).2

theorem values_cons_null (null : (row.at operator.overColumn).isNone = true) :
    operator.values (row ::ₘ rows) = operator.values rows := by
  simp [values, null]

theorem values_cons (notNull : ¬ (row.at operator.overColumn).isNone = true) :
    operator.values (row ::ₘ rows) = row.at operator.overColumn ::ₘ operator.values rows := by
  simp [values, notNull]

end

theorem extremum_of_values_zero (none : operator.values rows = 0) :
    operator.extremum rows = .none := by
  have empty : ascending (operator.values rows) = [] := by
    rw [← coe_eq_zero, coe_ascending, none]
  rw [extremum, empty, (operator.op.extreme_eq_none_iff).mpr rfl]
  rfl

theorem extremum_best (some : operator.values rows ≠ 0) :
    operator.Best (operator.values rows) (operator.extremum rows) := by
  cases found : operator.op.extreme (ascending (operator.values rows)) with
  | none =>
    have empty := operator.op.extreme_eq_none_iff.mp found
    rw [← coe_eq_zero, coe_ascending] at empty
    exact absurd empty some
  | some best =>
    have isBest := operator.op.extreme_eq_some_iff.mp found
    simp only [mem_ascending] at isBest
    rw [extremum, found]
    exact isBest

theorem Best.eq_extremum {best : DfValue V}
    (isBest : operator.Best (operator.values rows) best) : best = operator.extremum rows := by
  have some : operator.values rows ≠ 0 := by
    intro none
    simpa [none] using isBest.1
  have extreme := extremum_best some
  exact operator.op.asExtreme_antisymm (isBest.2 _ extreme.1) (extreme.2 _ isBest.1)

/-! ## The candidates -/

/-- What the loop in `apply` keeps of the group's values. -/
structure Candidates (operator : ExtremumOperator) (current : Option (DfValue V))
    (cells : Multiset (DfValue V)) (extremeValues : List (DfValue V)) : Prop where
  /-- All copies of the values beyond the current one. -/
  beyond : ∀ cell, operator.isExtremeValue current cell = true → current ≠ some cell →
    extremeValues.count cell = cells.count cell
  /-- No copy of the current value that the group does not have. -/
  atCurrent : ∀ cell, current = some cell → cell ≠ .none →
    extremeValues.count cell ≤ cells.count cell
  /-- Nothing less extreme than the current value. -/
  extreme : ∀ cell ∈ extremeValues, operator.isExtremeValue current cell = true
  /-- A current NULL, which no diff removes. -/
  null : current = some .none → extremeValues.count .none = 1

section

variable {cur : Option (DfValue V)} {cells : Multiset (DfValue V)} {cell : DfValue V}
  {extremeValues : List (DfValue V)}

section

variable (extreme : operator.isExtremeValue cur cell = true) (other : DfValue V)

include extreme

theorem count_insert :
    (operator.onDiff cur extremeValues (.insert cell)).count other =
      extremeValues.count other + if other = cell then 1 else 0 := by
  rw [onDiff, if_pos extreme, List.count_append, List.count_singleton]
  simp [eq_comm (a := cell)]

theorem count_remove :
    (operator.onDiff cur extremeValues (.remove cell)).count other =
      extremeValues.count other - if other = cell then 1 else 0 := by
  rw [onDiff, if_pos extreme, (swapRemoveFirst_perm extremeValues cell).count_eq, List.count_erase]
  simp [eq_comm (a := cell)]

end

section

variable (candidates : operator.Candidates cur cells extremeValues)

include candidates

/-- An inserted value keeps the best candidate among those collected. -/
theorem Candidates.insert (notNull : cell ≠ .none) :
    operator.Candidates cur (cell ::ₘ cells)
      (operator.onDiff cur extremeValues (.insert cell)) := by
  by_cases extreme : operator.isExtremeValue cur cell = true
  · constructor
    · intro other further notCurrent
      rw [count_insert extreme, count_cons, candidates.beyond other further notCurrent]
    · intro other isCurrent otherNotNull
      rw [count_insert extreme, count_cons]
      exact Nat.add_le_add_right (candidates.atCurrent other isCurrent otherNotNull) _
    · intro other mem
      rw [onDiff, if_pos extreme, List.mem_append, List.mem_singleton] at mem
      rcases mem with old | rfl
      · exact candidates.extreme other old
      · exact extreme
    · intro isNull
      rw [count_insert extreme, if_neg notNull.symm, candidates.null isNull]
  · -- The value is neither beyond the current one nor equal to it.
    have skipped : operator.onDiff cur extremeValues (.insert cell) = extremeValues := by
      rw [onDiff, if_neg extreme]
    rw [skipped]
    constructor
    · intro other further notCurrent
      rw [count_cons_of_ne (by rintro rfl; exact extreme further)]
      exact candidates.beyond other further notCurrent
    · intro other isCurrent otherNotNull
      exact (candidates.atCurrent other isCurrent otherNotNull).trans
        (count_le_count_cons other cell cells)
    · exact candidates.extreme
    · exact candidates.null

/-- The best of the candidates is the best of the group. -/
theorem Candidates.best {best : DfValue V} (found : operator.op.extreme extremeValues = some best)
    (notNull : best ≠ .none) : operator.Best cells best := by
  obtain ⟨mem, least⟩ := operator.op.extreme_eq_some_iff.mp found
  have isExtreme := candidates.extreme best mem
  have held := List.one_le_count_iff.mpr mem
  constructor
  · rw [← one_le_count_iff_mem]
    by_cases isCurrent : cur = some best
    · exact held.trans (candidates.atCurrent best isCurrent notNull)
    · rwa [← candidates.beyond best isExtreme isCurrent]
  · intro other otherMember
    by_cases further : operator.isExtremeValue cur other = true
    · by_cases isCurrent : cur = some other
      · subst isCurrent
        exact of_decide_eq_true isExtreme
      · apply least
        rw [← List.one_le_count_iff, candidates.beyond other further isCurrent]
        exact one_le_count_iff_mem.mpr otherMember
    · cases cur with
      | none => exact absurd rfl further
      | some bound =>
        have beyond : operator.op.AsExtreme best bound := of_decide_eq_true isExtreme
        rcases operator.op.asExtreme_total other bound with above | below
        · exact absurd (decide_eq_true above) further
        · exact operator.op.asExtreme_trans beyond below

end

namespace Candidates

/-- A removed value leaves the candidates. -/
theorem remove (candidates : operator.Candidates cur (cell ::ₘ cells) extremeValues)
    (notNull : cell ≠ .none) :
    operator.Candidates cur cells (operator.onDiff cur extremeValues (.remove cell)) := by
  by_cases extreme : operator.isExtremeValue cur cell = true
  · constructor
    · intro other further notCurrent
      rw [count_remove extreme, candidates.beyond other further notCurrent, count_cons]
      omega
    · intro other isCurrent otherNotNull
      have bound := candidates.atCurrent other isCurrent otherNotNull
      rw [count_cons] at bound
      rw [count_remove extreme]
      omega
    · intro other mem
      rw [onDiff, if_pos extreme, (swapRemoveFirst_perm extremeValues cell).mem_iff] at mem
      exact candidates.extreme other (List.mem_of_mem_erase mem)
    · intro isNull
      rw [count_remove extreme, if_neg notNull.symm, candidates.null isNull]
  · have skipped : operator.onDiff cur extremeValues (.remove cell) = extremeValues := by
      rw [onDiff, if_neg extreme]
    rw [skipped]
    have isExtreme : ∀ other, cur = some other → operator.isExtremeValue cur other = true := by
      rintro other rfl
      exact decide_eq_true (operator.op.asExtreme_refl other)
    constructor
    · intro other further notCurrent
      have same := candidates.beyond other further notCurrent
      rwa [count_cons_of_ne (by rintro rfl; exact extreme further)] at same
    · intro other isCurrent otherNotNull
      have bound := candidates.atCurrent other isCurrent otherNotNull
      rwa [count_cons_of_ne (by rintro rfl; exact extreme (isExtreme _ isCurrent))] at bound
    · exact candidates.extreme
    · exact candidates.null

/-- One record of a group. -/
theorem step {next : Multiset (Row V)} {record : Record V}
    (candidates : operator.Candidates cur (operator.values rows) extremeValues)
    (applied : applyOne rows record = some next) :
    operator.Candidates cur (operator.values next) (operator.onDiff cur extremeValues
        (operator.toDiff record.value record.isPositive)) := by
  cases record with
  | positive row =>
    obtain rfl : row ::ₘ rows = next := by simpa [applyOne] using applied
    by_cases null : (row.at operator.overColumn).isNone = true
    · rw [values_cons_null null, Signed.value_positive, toDiff, if_pos null]
      exact candidates
    · rw [values_cons null, Signed.value_positive, toDiff, if_neg null]
      exact candidates.insert (mt DfValue.isNone_iff.mpr null)
  | negative row =>
    obtain ⟨mem, rfl⟩ := applyOne_negative_eq_some.mp applied
    rw [← cons_erase mem] at candidates
    by_cases null : (row.at operator.overColumn).isNone = true
    · rw [values_cons_null null] at candidates
      rw [Signed.value_negative, toDiff, if_pos null]
      exact candidates
    · rw [values_cons null] at candidates
      rw [Signed.value_negative, toDiff, if_neg null]
      exact candidates.remove (mt DfValue.isNone_iff.mpr null)

theorem foldl {records : List (Record V)}
    (candidates : operator.Candidates cur (operator.values rows) extremeValues)
    (applied : applyAll rows records = some after) :
    operator.Candidates cur (operator.values after)
      ((records.map fun record => operator.toDiff record.value record.isPositive).foldl
        (operator.onDiff cur) extremeValues) := by
  induction records generalizing rows extremeValues with
  | nil =>
    obtain rfl : rows = after := by simpa using applied
    exact candidates
  | cons record records ih =>
    obtain ⟨next, first, rest⟩ := applyAll_cons_eq_some.mp applied
    exact ih (candidates.step first) rest

theorem blank (operator : ExtremumOperator) :
    operator.Candidates (none : Option (DfValue V)) (operator.values 0) [] := by
  constructor <;> simp [values]

/-- The stored extremum is the first candidate. -/
theorem start (rows : Multiset (Row V)) :
    operator.Candidates (some (operator.extremum rows)) (operator.values rows)
      [operator.extremum rows] := by
  have single (cell : DfValue V) (other : some (operator.extremum rows) ≠ some cell) :
      [operator.extremum rows].count cell = 0 := by
    rw [List.count_eq_zero]
    intro mem
    exact other (congrArg some (List.mem_singleton.mp mem).symm)
  constructor
  · intro cell further notCurrent
    rw [single cell notCurrent, eq_comm, count_eq_zero]
    intro mem
    -- A value of the group beyond its extremum would be the extremum.
    have nonempty : operator.values rows ≠ 0 := by
      rintro none
      simp [none] at mem
    have best := extremum_best nonempty
    exact notCurrent (congrArg some
      (operator.op.asExtreme_antisymm (best.2 cell mem) (of_decide_eq_true further)))
  · rintro cell isCell notNull
    obtain rfl := Option.some.inj isCell
    have nonempty : operator.values rows ≠ 0 := fun none => notNull (extremum_of_values_zero none)
    simpa using one_le_count_iff_mem.mpr (extremum_best nonempty).1
  · intro cell mem
    rw [List.mem_singleton.mp mem]
    exact decide_eq_true (operator.op.asExtreme_refl _)
  · intro isNull
    simp [Option.some.inj isNull]

/-- The outcome is the extremum, unless a minimum starts from NULL: NULL then
stays the outcome. -/
theorem extremum_eq {best : DfValue V}
    (candidates : operator.Candidates cur (operator.values after) extremeValues)
    (found : operator.op.extreme extremeValues = some best)
    (fromNull : operator.op = .min → cur = some .none → operator.values after = 0) :
    best = operator.extremum after := by
  by_cases isNull : best = .none
  · subst isNull
    obtain ⟨mem, least⟩ := operator.op.extreme_eq_some_iff.mp found
    have currentNull : cur = some .none := by
      by_contra notCurrent
      have same := candidates.beyond .none (candidates.extreme _ mem) notCurrent
      rw [count_eq_zero.mpr fun inside => ne_none_of_mem_values inside rfl] at same
      exact List.count_eq_zero.mp same mem
    have nothing : operator.values after = 0 := by
      cases isOp : operator.op with
      | min => exact fromNull isOp currentNull
      | max =>
        apply eq_zero_of_forall_notMem
        intro cell inside
        have notNull := ne_none_of_mem_values inside
        -- A maximum collects every value beyond NULL, so NULL would not win.
        have further : operator.isExtremeValue cur cell = true := by
          rw [currentNull]
          apply decide_eq_true
          rw [isOp]
          exact DfValue.none_le cell
        have collected : cell ∈ extremeValues := by
          rw [← List.one_le_count_iff, candidates.beyond cell further
            (by rw [currentNull]; exact fun same => notNull (Option.some.inj same).symm)]
          exact one_le_count_iff_mem.mpr inside
        have below := least cell collected
        rw [isOp] at below
        exact notNull (DfValue.le_none_iff.mp below)
    exact (extremum_of_values_zero nothing).symm
  · exact (candidates.best found isNull).eq_extremum

end Candidates

end

theorem apply_blank {rows : List (Row V)} :
    (operator.apply none (rows.map fun row => operator.toDiff row true)).getD .none =
      operator.extremum rows := by
  have applied : applyAll 0 (rows.map Signed.positive) = some (rows : Multiset (Row V)) := by
    rw [applyAll_map_positive]
    simp
  have candidates : operator.Candidates none (operator.values rows)
      ((rows.map fun row => operator.toDiff row true).foldl (operator.onDiff none)
        (none : Option (DfValue V)).toList) := by
    have folded := (Candidates.blank operator).foldl applied
    rwa [List.map_map] at folded
  cases found : operator.apply none (rows.map fun row => operator.toDiff row true) with
  | none =>
    rw [operator.op.extreme_eq_none_iff.mp found] at candidates
    refine (extremum_of_values_zero (eq_zero_of_forall_notMem fun cell => ?_)).symm
    rw [← count_eq_zero, ← candidates.beyond cell rfl (by simp), List.count_nil]
  | some best => exact candidates.extremum_eq found (by simp)

/-! ## Runs -/

variable (operator) in
/-- A group with rows but no values gets no value, unless the operator takes
maxima. -/
def StaysNull (before after : Multiset (Row V)) : Prop :=
  operator.op = .min → before ≠ 0 → operator.values before = 0 → operator.values after = 0

variable {src us : LocalNodeIndex} {nonempty : operator.group ≠ []} {nodes : DomainNodes V}
  {states : StateMap V} {before : Multiset (Row V)} {batch : List (Record V)} {key : Key V}
 {table : Multiset (Row V)}

theorem candidates_held :
    let op := operator.node src us nonempty
    operator.Candidates (op.held operator.extremum table key) (operator.values (op.group table key))
      (op.held operator.extremum table key).toList := by
  intro op
  rw [GroupedOperator.held]
  split
  case isTrue none =>
    rw [none]
    exact Candidates.blank operator
  case isFalse => exact Candidates.start _

theorem held_eq_null
    (null : (operator.node src us nonempty).held operator.extremum table key = some .none) :
    (operator.node src us nonempty).group table key ≠ 0 ∧
      operator.values ((operator.node src us nonempty).group table key) = 0 := by
  rw [GroupedOperator.held] at null
  split at null
  case isTrue => contradiction
  case isFalse mem =>
    refine ⟨mem, ?_⟩
    by_contra nonempty
    exact ne_none_of_mem_values (extremum_best nonempty).1 (Option.some.inj null)

/-- The extremum of a group is computed from its differences, or from the parent. -/
theorem computes (valid : applyAll before batch = some after) {parentState : State V}
    (here : states src = some parentState) (full : FullOn parentState operator.group after)
    (length : key.length = operator.group.length)
    (staysNull : operator.StaysNull ((operator.node src us nonempty).group before key)
      ((operator.node src us nonempty).group after key)) :
    (operator.node src us nonempty).Computes operator.extremum .none nodes states before after
      batch (fun record => operator.toDiff record.value record.isPositive) key := by
  intro cache
  set op : GroupedOperator V PUnit (DiffType V) := operator.node src us nonempty
  have start : operator.Candidates (op.held operator.extremum before key)
      (operator.values (op.group before key)) (op.held operator.extremum before key).toList :=
    candidates_held
  have candidates := start.foldl (GroupedOperator.applyAll_group valid key)
  set diffs := (op.groupRecords batch key).map fun record =>
    operator.toDiff record.value record.isPositive
  have applied : op.inner.apply cache (op.held operator.extremum before key) diffs =
      .ok (operator.apply (op.held operator.extremum before key) diffs, cache) := rfl
  cases found : operator.apply (op.held operator.extremum before key) diffs with
  | some best =>
    rw [found] at applied
    refine ⟨best, [], cache, by simp [GroupedOperator.newValue, applied], fun _ => ?_⟩
    apply candidates.extremum_eq found
    intro isMin currentNull
    obtain ⟨mem, null⟩ := held_eq_null currentNull
    exact staysNull isMin mem null
  | none =>
    rw [found] at applied
    obtain ⟨rows, contents, afresh⟩ :=
      GroupedOperator.newValue_of_none here full length (fun _ => rfl) applied
    obtain ⟨lookups, computed⟩ := afresh _ _ rfl
    refine ⟨_, lookups, _, computed, fun _ => ?_⟩
    rw [← contents]
    exact apply_blank

/-- **A run of an extremum operator.** If no batch gives the first value to a
group that a minimum holds as NULL, then after the batches the own contents hold
one row for every group, with the extremum of its non-NULL values. Every prefix
of the run is such a run too. -/
theorem run_holdsExtremum {arith : Arithmetic V} (exact_ : arith.Exact)
    {materialize : GroupedOperator.Materialization V}
    (materializes : ∀ batches own parent, (operator.node src us nonempty).Materializes
      (materialize batches own parent) own parent)
    {batches : List (List (Record V))} (valid : (applyAll 0 batches.flatten).isSome)
    (staysNull : EveryStep (fun earlier batch => ∀ key,
      operator.StaysNull (matching (GroupedOperator.tableAfter earlier) operator.group key)
        (matching (GroupedOperator.tableAfter (earlier ++ [batch])) operator.group key)) batches) :
    let op := operator.node src us nonempty
    ∃ trace final,
      run (GroupedOperator.World.feed op arith nodes materialize) { cache := ⟨⟩ } batches =
        .ok (trace, final) ∧
      trace.map Prod.fst = batches ∧ final.parent = GroupedOperator.tableAfter batches ∧
      op.Summarizes arith operator.extremum final.own final.parent := by
  intro op
  apply GroupedOperator.run_summarizes exact_ rfl materializes (fun _ => rfl) valid
  intro earlier batch later split states own materialized key touched
  obtain ⟨parentState, here, full⟩ := materialized.parent
  obtain ⟨record, member⟩ := List.exists_mem_of_ne_nil _ touched
  have length : key.length = operator.group.length := by
    rw [← of_decide_eq_true (List.mem_filter.mp member).2]
    exact op.groupValues_length record
  exact computes (GroupedOperator.everyStep_valid valid earlier batch later split) here full length
    (staysNull earlier batch later split key)

/-! ## A minimum that stays NULL -/

/-- The minimum of column 1 for each value of column 0. -/
def lowest : ExtremumOperator where
  op := .min
  overColumn := 1
  group := [0]

/-- A group's first row has no value, its second has. -/
def lateValue : List (List (Record ℤ)) :=
  [[.positive [.value 1, .none]], [.positive [.value 1, .value 5]]]

def lowestNode : GroupedOperator ℤ PUnit (DiffType ℤ) := lowest.node 0 1 (by decide)

/-- The minimum of the group is 5, but its row still says NULL. -/
theorem lateValue_staysNull :
    ∃ trace final, run (GroupedOperator.World.feed lowestNode .integers .none lowestNode.holdBoth)
        { cache := ⟨⟩ } lateValue = .ok (trace, final) ∧
      final.own = {[.value 1, .none, .value 2]} ∧
      ¬ lowestNode.Summarizes .integers lowest.extremum final.own final.parent := by
  have ran : (run (GroupedOperator.World.feed lowestNode .integers .none lowestNode.holdBoth)
      { cache := ⟨⟩ } lateValue).toOption.map (fun result => (result.2.own, result.2.parent)) =
      some ({[.value 1, .none, .value 2]}, {[.value 1, .none], [.value 1, .value 5]}) := by
    decide +kernel
  obtain ⟨⟨trace, final⟩, isRun, contents⟩ := Option.map_eq_some_iff.mp ran
  obtain ⟨ownIs, parentIs⟩ := Prod.mk.inj contents
  refine ⟨trace, final, ?_, ownIs, ?_⟩
  · cases outcome : run (GroupedOperator.World.feed lowestNode .integers .none lowestNode.holdBoth)
        { cache := ⟨⟩ } lateValue with
    | error fault => simp [outcome, Except.toOption] at isRun
    | ok result => simpa [outcome, Except.toOption] using isRun
  · intro summarizes
    have atOne := summarizes [.value 1]
    rw [show final.own = {[.value 1, .none, .value 2]} from ownIs,
      show final.parent = {[.value 1, .none], [.value 1, .value 5]} from parentIs] at atOne
    revert atOne
    decide +kernel

theorem staysNull_of_values {cols : List Nat}
    (valued : ∀ row ∈ before, ¬ (row.at operator.overColumn).isNone = true) :
    operator.StaysNull (matching before cols key) after := by
  intro _ mem none
  obtain ⟨row, mem⟩ := exists_mem_of_ne_zero mem
  have value : row.at operator.overColumn ∈ operator.values (matching before cols key) :=
    mem_filter.mpr ⟨mem_map_of_mem _ mem, valued row (mem_filter.mp mem).1⟩
  simp [none] at value

/-- A group loses its minimum, then its last value. -/
def fadingValues : List (List (Record ℤ)) :=
  [] ++ [[.positive [.value 1, .value 5], .positive [.value 1, .value 3]]] ++
    [[.negative [.value 1, .value 3]]] ++
    [[.positive [.value 1, .none], .negative [.value 1, .value 5]]]

theorem run_holdsExtremum_fadingValues :
    ∃ trace final, run (GroupedOperator.World.feed lowestNode .integers .none lowestNode.holdBoth)
        { cache := ⟨⟩ } fadingValues = .ok (trace, final) ∧
      trace.map Prod.fst = fadingValues ∧
      final.parent = GroupedOperator.tableAfter fadingValues ∧
      lowestNode.Summarizes .integers lowest.extremum final.own final.parent := by
  apply run_holdsExtremum Arithmetic.integers_exact
    (lowestNode.holdBoth_materializes (by decide)) (by decide)
  rw [fadingValues, everyStep_concat, everyStep_concat, everyStep_concat]
  refine ⟨⟨⟨everyStep_nil, ?_⟩, ?_⟩, ?_⟩
  all_goals
    intro key
    apply staysNull_of_values
    decide

end ExtremumOperator

end ReadySet.Ops.Grouped
