import ReadySet.Library.Runs
import ReadySet.Data.Arithmetic

/-!
Owns the grouped operator as the source computes it, over any grouped
operation: the sort of a batch by group, the fold of each group's records into
the value read back from the operator's own state, the recomputation from the
parent when an operation has lost its value, and the emitted rows.

Does not own the operations (`Aggregate`, `Extremum`).
-/

namespace ReadySet.Ops.Grouped

open Data Library Dataflow

universe u

/-- `GroupedOperation`. `Cache` is what the operation keeps between calls. -/
structure GroupedOperation (V Cache Diff : Type u) where
  groupBy : List Nat
  toDiff : Row V → Bool → ReadySetResult Diff
  /-- `none` when the operation has lost the value and must start afresh. -/
  apply : Cache → Option (DfValue V) → List Diff →
    ReadySetResult (Option (DfValue V) × Cache)
  emptyValue : Option (DfValue V) := none
  emitEmpty : Bool := false

/-- `GroupedOperator`. The planner groups by at least one column, made up if
need be; `PointKey::from` panics on none. -/
structure GroupedOperator (V Cache Diff : Type u) where
  src : LocalNodeIndex
  us : LocalNodeIndex
  inner : GroupedOperation V Cache Diff
  nonempty : inner.groupBy ≠ []

namespace GroupedOperator

variable {V Cache Diff : Type u} (op : GroupedOperator V Cache Diff)

def groupBy : List Nat := op.inner.groupBy

/-- `out_key`: the group columns of the output. -/
def outKey : List Nat := List.range op.groupBy.length

/-- `get_group_values`. -/
def groupValues (record : Record V) : Key V := record.value.clonedIndices op.groupBy

variable [LinearOrder V] (arith : Arithmetic V)

/-- The lookup that a partial replay depended on. -/
def noteLookup (replay : ReplayContext V) (on : LocalNodeIndex) (cols : List Nat)
    (group : Key V) : List (Lookup V) :=
  match replay with
  | .partial_ _ _ _ _ _ _ => [{ on, cols, key := .equal group }]
  | _ => []

/-- The rows that a lookup missed for. -/
def missAll (replay : ReplayContext V) (on : LocalNodeIndex) (lookupIdx : List Nat)
    (records : List (Record V)) : List (Miss V) :=
  records.map fun record =>
    Miss.build on lookupIdx (.recordColumns op.groupBy) replay none record.value

/-- The new value of a group, with the lookups it took; `none` on a miss in the
parent. -/
def newValue (replay : ReplayContext V) (nodes : DomainNodes V) (states : StateMap V)
    (cache : Cache) (group : Key V) (current : Option (DfValue V)) (diffs : List Diff) :
    ReadySetResult (Option (DfValue V × List (Lookup V)) × Cache) := do
  let (applied, cache) ← op.inner.apply cache current diffs
  match applied with
  | some new => return (some (new, []), cache)
  | none =>
    -- The grouped state is lost: all records of the group, from a blank value.
    match ← ingredientLookup op.src op.groupBy group nodes states .strict with
    | .miss => return (none, cache)
    | .records records =>
      let rows ← collectRows records
      let diffs ← rows.mapM fun row => op.inner.toDiff row true
      let (applied, cache) ← op.inner.apply cache none diffs
      let new := applied.getD (op.inner.emptyValue.getD .none)
      return (some (new, noteLookup replay op.src op.groupBy group), cache)

/-- The records emitted for a group. The row of a group is the group itself,
its value and its number of rows. -/
def emitGroup (group : Key V) (old : Option (Row V)) (current : Option (DfValue V))
    (new : DfValue V) (rowsInGroup rowsInGroupNew : ℤ) : List (Record V) :=
  if current = some new ∧ rowsInGroupNew = rowsInGroup then []
  else
    (old.map Signed.negative).toList ++
      if 0 < rowsInGroupNew ∨ op.inner.emitEmpty = true then
        [.positive (group ++ [new, .value (arith.int rowsInGroupNew)])]
      else []

/-- The current value: the second to last column of the group's row. -/
def currentValue (old : Option (Row V)) : Option (DfValue V) :=
  old.bind fun row => row[row.length - 2]?

def currentRows (old : Option (Row V)) : ℤ :=
  (old.bind fun row => row.getLast?.bind arith.toInt?).getD 0

def handleGroup (replay : ReplayContext V) (nodes : DomainNodes V) (states : StateMap V)
    (own : State V) (cache : Cache) (records : List (Record V)) (diffs : List Diff)
    (posNegDelta : ℤ) : ReadySetResult (ProcessingResult V × Cache) :=
  match records with
  | [] => .error (.panicked "called `Option::unwrap()` on a `None` value")
  | first :: _ =>
    let group := op.groupValues first
    match own.lookup op.outKey group with
    | .missing => .ok ({ misses := op.missAll replay op.us op.outKey records }, cache)
    | .some rows => do
        let lookups := noteLookup replay op.us op.outKey group
        let old := rows.head?
        let current := currentValue old
        let rowsInGroup := currentRows arith old
        match ← op.newValue replay nodes states cache group current diffs with
        | (none, cache) =>
          return ({ misses := op.missAll replay op.src op.groupBy records, lookups }, cache)
        | (some (new, parentLookups), cache) =>
          return ({
            results := op.emitGroup arith group old current new rowsInGroup
              (rowsInGroup + posNegDelta)
            lookups := lookups ++ parentLookups }, cache)

/-- The state of the loop over the sorted records: the current group's records,
diffs and balance, and what the groups before it came to. -/
structure LoopState (V Cache Diff : Type u) where
  groupRs : List (Record V) := []
  diffs : List Diff := []
  posNegDelta : ℤ := 0
  result : ProcessingResult V := {}
  cache : Cache

/-- The current group is handled and drained. -/
def finishGroup (replay : ReplayContext V) (nodes : DomainNodes V) (states : StateMap V)
    (own : State V) (loop : LoopState V Cache Diff) :
    ReadySetResult (LoopState V Cache Diff) := do
  let (result, cache) ← op.handleGroup arith replay nodes states own loop.cache
    loop.groupRs loop.diffs loop.posNegDelta
  return { result := loop.result ++ result, cache }

/-- Whether a record begins a new group. -/
def beginsGroup (loop : LoopState V Cache Diff) (record : Record V) : Bool :=
  match loop.groupRs with
  | [] => false
  | first :: _ => Key.cmp (op.groupValues first) (op.groupValues record) ≠ .eq

def onRecord (replay : ReplayContext V) (nodes : DomainNodes V) (states : StateMap V)
    (own : State V) (loop : LoopState V Cache Diff) (record : Record V) :
    ReadySetResult (LoopState V Cache Diff) := do
  let loop ← if op.beginsGroup loop record then
      op.finishGroup arith replay nodes states own loop
    else pure loop
  let diff ← op.inner.toDiff record.value record.isPositive
  return { loop with
    diffs := loop.diffs ++ [diff]
    posNegDelta := loop.posNegDelta + record.sign
    groupRs := loop.groupRs ++ [record] }

def onInput (cache : Cache) (batch : List (Record V)) (replay : ReplayContext V)
    (nodes : DomainNodes V) (states : StateMap V) :
    ReadySetResult (ProcessingResult V × Cache) :=
  if batch = [] then .ok ({}, cache)
  else
    match states op.us with
    | none => .error (.internal "grouped operators must have their own state materialized")
    | some own => do
        let loop ← (stableSort Key.cmp op.groupValues batch).foldlM
          (op.onRecord arith replay nodes states own) { cache }
        let loop ← op.finishGroup arith replay nodes states own loop
        return (loop.result, loop.cache)

end GroupedOperator

end ReadySet.Ops.Grouped
