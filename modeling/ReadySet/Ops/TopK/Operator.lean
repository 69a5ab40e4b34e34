import ReadySet.Library.Heap
import ReadySet.Library.Runs
import ReadySet.Dataflow.Processing
import ReadySet.Ops.Utils

/-!
Owns the top-k operator as the source computes it: the heap of the group being
processed, the backfill from the parent, the swap that avoids needless
retractions, and the loop over the batch sorted by group.

The heap's internal order and the order of ties in unstable sorts are those of
a `Containers` parameter. Does not own what the operator is for; that is
`TopK.Updates`.
-/

namespace ReadySet.Ops

open Data Library Dataflow

universe u

/-- `TopK`. The list of group columns is never empty. -/
structure TopK where
  src : LocalNodeIndex
  ourIndex : LocalNodeIndex
  groupBy : List Nat
  order : Order
  k : Nat
  groupBy_nonempty : groupBy ≠ []
deriving DecidableEq, Repr

/-- `CurrentRecord`: a row of the group, and whether the batch brought it. -/
structure CurrentRecord (V : Type u) where
  row : Row V
  isNew : Bool
deriving DecidableEq, Repr

variable {V : Type u} [LinearOrder V]

/-- `CurrentRecord::cmp`: reversed, so that a max-heap yields the least row. -/
def CurrentRecord.cmp (order : Order) (left right : CurrentRecord V) : Ordering :=
  (order.cmp left.row right.row).swap

/-- The comparison rows of the parent are sorted by before a backfill. -/
def descending (order : Order) (left right : Row V) : Ordering := (order.cmp left right).swap

instance currentRecordTransCmp (order : Order) :
    Std.TransCmp (CurrentRecord.cmp (V := V) order) where
  eq_swap {left right} := by
    unfold CurrentRecord.cmp
    rw [order.cmp_swap left.row right.row, Ordering.swap_swap]
  isLE_trans {left middle right} below above := by
    unfold CurrentRecord.cmp at below above ⊢
    rw [← order.cmp_swap] at below above ⊢
    exact Std.TransCmp.isLE_trans above below

instance descendingTransCmp (order : Order) : Std.TransCmp (descending (V := V) order) where
  eq_swap {left right} := by
    unfold descending
    rw [order.cmp_swap left right, Ordering.swap_swap]
  isLE_trans {left middle right} below above := by
    unfold descending at below above ⊢
    rw [← order.cmp_swap] at below above ⊢
    exact Std.TransCmp.isLE_trans above below

/-- The standard containers the operator uses. -/
structure Containers (V : Type u) [LinearOrder V] (order : Order) where
  heap : BinaryHeap (CurrentRecord V) (CurrentRecord.cmp order)
  sortUnstable : UnstableSort (Row V) (descending order)

namespace TopK

variable (topk : TopK)

/-- `project_group`; a row without the group columns is refused. -/
def projectGroup (row : Row V) : ReadySetResult (Key V) :=
  if ∀ column ∈ topk.groupBy, column < row.length then .ok (row.clonedIndices topk.groupBy)
  else .error .invalidRecordLength

/-- The rows a short group is topped up with: of the parent's group, greatest
first, those after as many rows as the group still holds. -/
def backfill (containers : Containers V topk.order) (parentRows : List (Row V)) (held : Nat) :
    List (Row V) :=
  ((containers.sortUnstable.sort parentRows).drop held).take (topk.k - held)

/-- One round of the optimization: a new row at position `index` of the top
part gives way to an old row of the same order below `start`. -/
def swapRound (start : Nat) (current : List (CurrentRecord V)) (index : Nat) :
    List (CurrentRecord V) :=
  match current[index]? with
  | none => current
  | some record =>
    if record.isNew then
      let replace := (current.take start).findIdx? fun other =>
        !other.isNew && topk.order.cmp other.row record.row == .eq
      match replace with
      | none => current
      | some position =>
        match current[position]? with
        | none => current
        | some other => (current.set index other).set position record
    else current

/-- If we do not have to remove something, we do not. -/
def swapTies (start : Nat) (current : List (CurrentRecord V)) : List (CurrentRecord V) :=
  (List.range' start (current.length - start)).foldl (topk.swapRound start) current

/-- The records a finished group gives rise to, from the least row on. -/
def emitGroup (start : Nat) (sorted : List (CurrentRecord V)) : List (Record V) :=
  ((sorted.drop start).filter (·.isNew)).map (fun record => .positive record.row) ++
    ((sorted.take start).filter (!·.isNew)).map (fun record => .negative record.row)

/-- The parent's rows that are added to a group that fell below `k` rows, and
the lookup that was made for them. -/
def backfillGroup (containers : Containers V topk.order) (current : List (CurrentRecord V))
    (groupKey : Key V) (originalGroupLen : Nat) (states : StateMap V) (nodes : DomainNodes V) :
    ReadySetResult (List (CurrentRecord V) × Option (Lookup V)) :=
  if originalGroupLen = topk.k ∧ current.length < originalGroupLen then do
    match ← ingredientLookup topk.src topk.groupBy groupKey nodes states .strict with
    | .miss => .error (.internal
        "We shouldn't have been able to get this record if the parent would miss")
    | .records records =>
      let rows ← collectRows records
      let added := (topk.backfill containers rows current.length).map fun row =>
        { row, isNew := true }
      return (containers.heap.extend current added,
        some { on := topk.src, cols := topk.groupBy, key := .equal groupKey })
  else return (current, none)

def postGroup (containers : Containers V topk.order) (current : List (CurrentRecord V))
    (groupKey : Key V) (originalGroupLen : Nat) (states : StateMap V) (nodes : DomainNodes V) :
    ReadySetResult (List (Record V) × Option (Lookup V)) := do
  let start := current.length - topk.k
  let (current, lookup) ←
    topk.backfillGroup containers current groupKey originalGroupLen states nodes
  let sorted := (containers.heap.intoSortedVec.sort current).reverse
  return (emitGroup start (topk.swapTies start sorted), lookup)

/-- The variables of the loop of `on_input`. -/
structure LoopState (V : Type u) where
  groupKey : Key V := []
  originalGroupLen : Nat := 0
  missed : Bool := false
  current : List (CurrentRecord V) := []
  out : List (Record V) := []
  misses : List (Miss V) := []
  lookups : List (Lookup V) := []

/-- Tidying up the group processed so far, if there is one. -/
def finishGroup (containers : Containers V topk.order) (isReplay : Bool) (states : StateMap V)
    (nodes : DomainNodes V) (loop : LoopState V) : ReadySetResult (LoopState V) :=
  if loop.groupKey = [] then return loop
  else do
    let (emitted, lookup) ← topk.postGroup containers loop.current loop.groupKey
      loop.originalGroupLen states nodes
    return { loop with
      current := []
      out := loop.out ++ emitted
      lookups := if isReplay then loop.lookups ++ lookup.toList else loop.lookups }

/-- Making ready for a new group. -/
def startGroup (containers : Containers V topk.order) (isReplay : Bool) (own : State V)
    (groupKey : Key V) (loop : LoopState V) : ReadySetResult (LoopState V) :=
  if loop.current.isEmpty then
    match own.lookup topk.groupBy groupKey with
    | .some rows =>
      return { loop with
        groupKey
        originalGroupLen := rows.length
        missed := false
        current := containers.heap.extend loop.current
          (rows.map fun row => { row, isNew := false })
        lookups := if isReplay then
            loop.lookups ++ [{ on := topk.ourIndex, cols := topk.groupBy, key := .equal groupKey }]
          else loop.lookups }
    | .missing => return { loop with groupKey, missed := true }
  else .error (.internal "assertion failed: current.is_empty()")

/-- Whether a positive record is below the least row of a full group, and so
cannot be considered. -/
def skips (containers : Containers V topk.order) (originalGroupLen : Nat)
    (current : List (CurrentRecord V)) (row : Row V) : Bool :=
  topk.k ≤ originalGroupLen &&
    match containers.heap.peek current with
    | some least => topk.order.cmp least.row row == .gt
    | none => false

/-- One record of the group that is being processed. -/
def onRecord (containers : Containers V topk.order) (originalGroupLen : Nat)
    (current : List (CurrentRecord V)) (record : Record V) :
    List (CurrentRecord V) × List (Record V) :=
  match record with
  | .positive row =>
    if topk.skips containers originalGroupLen current row then (current, [])
    else (containers.heap.push current { row, isNew := true }, [])
  | .negative row =>
    match current.find? (·.row = row) with
    | none => (current, [])
    | some found =>
      (containers.heap.retain current (current.eraseP (·.row = row)),
        if found.isNew then [] else [.negative row])

/-- One round of the loop of `on_input`. -/
def onLoop (containers : Containers V topk.order) (replay : ReplayContext V) (own : State V)
    (states : StateMap V) (nodes : DomainNodes V) (loop : LoopState V) (record : Record V) :
    ReadySetResult (LoopState V) := do
  let isReplay := replay.key.isSome
  let groupKey ← topk.projectGroup record.value
  let loop ←
    if loop.groupKey = groupKey then pure loop
    else do
      let loop ← topk.finishGroup containers isReplay states nodes loop
      topk.startGroup containers isReplay own groupKey loop
  if loop.missed then
    return { loop with
      misses := loop.misses ++ [Miss.build topk.ourIndex topk.groupBy
        (.recordColumns topk.groupBy) replay none record.value] }
  else
    let (current, emitted) :=
      topk.onRecord containers loop.originalGroupLen loop.current record
    return { loop with current, out := loop.out ++ emitted }

def onInput (containers : Containers V topk.order) (batch : List (Record V))
    (replay : ReplayContext V) (nodes : DomainNodes V) (states : StateMap V) :
    ReadySetResult (ProcessingResult V) :=
  if batch = [] then return {}
  else do
    let sorted := stableSort Key.cmp (fun record : Record V =>
      (topk.projectGroup record.value).toOption.getD []) batch
    match states topk.ourIndex with
    | none => .error (.internal "topk operators must have their own state materialized")
    | some own =>
      let loop ← sorted.foldlM (topk.onLoop containers replay own states nodes) {}
      let loop ←
        topk.finishGroup containers replay.key.isSome states nodes loop
      return { results := loop.out, misses := loop.misses, lookups := loop.lookups }

end TopK

end ReadySet.Ops
