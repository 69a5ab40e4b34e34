import ReadySet.Library.Runs
import ReadySet.Dataflow.Processing

/-!
Owns the join operator as the source computes it: the rows it generates, the
resolution of replay columns, the buffer for upqueries split over both parents
and `onInput`, run by run over consecutive records with one join key.

Does not own what a join means; that is `Join.Semantics`.
-/

namespace ReadySet.Ops

open Data Library Dataflow

universe u

inductive JoinType where
  | left
  | inner
deriving DecidableEq, Repr

/-- Where a join column comes from (`JoinSource`). -/
inductive JoinSource where
  | fromLeft (column : Nat)
  | fromRight (column : Nat)
  | both (leftColumn rightColumn : Nat)
deriving DecidableEq, Repr

/-- The configuration of a join. It has at least one pair of join columns, and
its parents are two nodes. -/
structure JoinConfig where
  left : LocalNodeIndex
  right : LocalNodeIndex
  /-- Key columns in the left and right parents respectively. -/
  on : List (Nat × Nat)
  emit : List (Side × Nat)
  kind : JoinType
  on_nonempty : on ≠ []
  parents_distinct : left ≠ right
deriving DecidableEq, Repr

/-- The operator: its configuration, and the records kept from one half of an
upquery that was split over both parents, by key columns and side. -/
structure Join (V : Type u) extends JoinConfig where
  generatedColumnBuffer : List Nat × Side → Option (List (Record V))

namespace JoinConfig

variable {V : Type u} (join : JoinConfig)

/-- The emitted column of a source, and the join columns it adds. -/
def ofSource : JoinSource → (Side × Nat) × List (Nat × Nat)
  | .fromLeft column => ((.left, column), [])
  | .fromRight column => ((.right, column), [])
  | .both leftColumn rightColumn => ((.left, leftColumn), [(leftColumn, rightColumn)])

/-- `Join::new`; a join without join columns is refused. -/
def new (left right : LocalNodeIndex) (kind : JoinType) (emit : List JoinSource)
    (parents_distinct : left ≠ right) : Option JoinConfig :=
  let on := emit.flatMap fun source => (ofSource source).2
  if on_nonempty : on ≠ [] then
    some { left, right, on, emit := emit.map fun source => (ofSource source).1, kind,
           on_nonempty, parents_distinct }
  else none

def onLeft : List Nat := join.on.map Prod.fst

def onRight : List Nat := join.on.map Prod.snd

def generateRow (left right : Row V) : Row V :=
  join.emit.map fun (side, column) =>
    match side with
    | .left => left.at column
    | .right => right.at column

def generateNull (left : Row V) : Row V :=
  join.emit.map fun (side, column) => if side = .left then left.at column else .none

/-- The sending parent's column for one output column of a replay key, if the
column is the sender's own or joined with one of its columns. -/
def replayColumn (sender : LocalNodeIndex) (column : Nat) : Option Nat :=
  match join.emit[column]? with
  | some (.left, leftColumn) =>
    if sender = join.left then some leftColumn
    else (join.on.find? fun pair => pair.1 = leftColumn).map Prod.snd
  | some (.right, rightColumn) =>
    if sender = join.right then some rightColumn
    else (join.on.find? fun pair => pair.2 = rightColumn).map Prod.fst
  | none => none

/-- `replay_key_cols`: `none` when some column resolves to neither the sender
nor a join column, that is when the key straddles both parents. -/
def replayKeyCols (sender : LocalNodeIndex) (replay : ReplayContext V) :
    Option (Option (List Nat)) :=
  match replay.key with
  | none => some none
  | some columns => (columns.mapM (join.replayColumn sender)).map some

/-- `handle_replay_for_generated`: both halves of a split upquery arrived. -/
def handleReplayForGenerated [DecidableEq V] (left right : List (Record V)) :
    ReadySetResult (List (Record V)) :=
  match left with
  | [] => .ok []
  | .positive row :: rest => do
      let later ← handleReplayForGenerated rest right
      let joined := right.filter fun other =>
        row.clonedIndices join.onLeft = other.value.clonedIndices join.onRight
      return joined.map (fun other => .positive (join.generateRow row other.value)) ++ later
  | .negative _ :: _ => .error (.internal "replays should only include positive records")

def fromLeft (sender : LocalNodeIndex) : Bool := sender = join.left

def other (sender : LocalNodeIndex) : LocalNodeIndex :=
  if join.fromLeft sender then join.right else join.left

def fromKey (sender : LocalNodeIndex) : List Nat :=
  if join.fromLeft sender then join.onLeft else join.onRight

def otherKey (sender : LocalNodeIndex) : List Nat :=
  if join.fromLeft sender then join.onRight else join.onLeft

/-- The rows one record of a run contributes, given the rows it joins with. -/
def joinRecord (sender : LocalNodeIndex) (otherRows : List (Row V)) (record : Record V) :
    List (Record V) :=
  if otherRows.isEmpty then
    if join.kind = .left ∧ join.fromLeft sender then
      [Signed.ofFlag (join.generateNull record.value) record.isPositive]
    else []
  else
    otherRows.map fun other =>
      if join.fromLeft sender then
        Signed.ofFlag (join.generateRow record.value other) record.isPositive
      else
        Signed.ofFlag (join.generateRow other record.value) record.isPositive

/-- `rc_diff`: the change of the row count a run amounts to. -/
def rowCountDiff (run : List (Record V)) : ℤ :=
  (run.map fun record => if record.isPositive then (1 : ℤ) else -1).sum

/-- The padded rows emitted or revoked when a right-hand row count leaves or
reaches zero. -/
def nullRows (newCount : Nat) (diff : ℤ) (otherRows : List (Row V)) : List (Record V) :=
  let oldCount := (newCount : ℤ) - diff
  if newCount = 0 ∧ oldCount ≠ 0 then
    otherRows.map fun other => Signed.ofFlag (join.generateNull other) true
  else if newCount ≠ 0 ∧ oldCount = 0 then
    otherRows.map fun other => Signed.ofFlag (join.generateNull other) false
  else []

/-- `join_key.try_into()`: a key comparison is never empty. -/
def equalKey (key : Key V) : ReadySetResult (KeyComparison V) :=
  if key = [] then .error (.internal "Empty join key") else .ok (.equal key)

/-- The right-hand row count after the batch, where a left join needs it: the
outer `none` is a miss, which skips the run; the lookups are those a replay
records. -/
def newRightCount [DecidableEq V] (sender : LocalNodeIndex) (isReplay : Bool) (joinKey : Key V)
    (nodes : DomainNodes V) (states : StateMap V) :
    ReadySetResult (Option (Option Nat × List (Lookup V))) :=
  if join.kind = .left ∧ join.fromLeft sender = false then do
    let mode := if isReplay then LookupMode.strict else LookupMode.weak
    match ← ingredientLookup join.right join.onRight joinKey nodes states mode with
    | .records records =>
      let lookups ←
        if isReplay ∧ hasNull joinKey = false then do
          let key ← equalKey joinKey
          pure [{ on := join.right, cols := join.onRight, key }]
        else pure []
      return some (some records.length, lookups)
    | .miss => return none
  else
    return some (none, [])

/-- One run of records with one join key: an iteration of the loop of
`on_input`. -/
def onRun [LinearOrder V] (sender : LocalNodeIndex) (replay : ReplayContext V)
    (replayKeyCols : Option (List Nat)) (nodes : DomainNodes V) (states : StateMap V)
    (group : Key V × List (Record V)) : ReadySetResult (ProcessingResult V) := do
  let (joinKey, run) := group
  let isReplay := replayKeyCols.isSome
  let nulls := hasNull joinKey
  match ← join.newRightCount sender isReplay joinKey nodes states with
  | none => return {}
  | some (newCount, countLookups) =>
    let mode := if isReplay then LookupMode.strict else LookupMode.weak
    -- a NULL in the key matches nothing, although the state would find NULL rows
    let otherLookup ←
      if nulls then pure (.records [])
      else
        ingredientLookup (join.other sender) (join.otherKey sender) joinKey nodes states mode
    match otherLookup with
    | .miss =>
      return {
        misses := run.map fun record =>
          Miss.build (join.other sender) (join.otherKey sender)
            (.recordColumns (join.fromKey sender)) replay replayKeyCols record.value
        lookups := countLookups }
    | .records otherRecords =>
      let lookups ←
        if isReplay ∧ nulls = false then do
          let key ← equalKey joinKey
          pure [{ on := join.other sender, cols := join.otherKey sender, key }]
        else pure []
      let otherRows ← collectRows otherRecords
      let padding :=
        match newCount with
        | some newCount => join.nullRows newCount (rowCountDiff run) otherRows
        | none => []
      return {
        results := run.flatMap (join.joinRecord sender otherRows) ++ padding
        lookups := countLookups ++ lookups }

/-- The loop of `on_input` over the runs of the batch. -/
def onRuns [LinearOrder V] (sender : LocalNodeIndex) (replay : ReplayContext V)
    (replayKeyCols : Option (List Nat)) (nodes : DomainNodes V) (states : StateMap V) :
    List (Key V × List (Record V)) → ReadySetResult (ProcessingResult V)
  | [] => .ok {}
  | group :: rest => do
      let first ← join.onRun sender replay replayKeyCols nodes states group
      let later ← onRuns sender replay replayKeyCols nodes states rest
      return first ++ later

def joinKey (sender : LocalNodeIndex) (record : Record V) : Key V :=
  record.value.clonedIndices (join.fromKey sender)

end JoinConfig

def Join.onInput {V : Type u} [LinearOrder V] (join : Join V) (sender : LocalNodeIndex)
    (batch : List (Record V)) (replay : ReplayContext V) (nodes : DomainNodes V)
    (states : StateMap V) : ReadySetResult (ProcessingResult V × Join V) :=
  match join.replayKeyCols sender replay with
  | none =>
    -- the replay key straddles both parents
    let columns := replay.key.getD []
    let ownSide := if join.fromLeft sender then Side.left else Side.right
    let otherSide := if join.fromLeft sender then Side.right else Side.left
    match join.generatedColumnBuffer (columns, otherSide) with
    | some other => do
        let (left, right) := if join.fromLeft sender then (batch, other) else (other, batch)
        let results ← join.handleReplayForGenerated left right
        return ({ results }, { join with
          generatedColumnBuffer :=
            Function.update join.generatedColumnBuffer (columns, otherSide) none })
    | none =>
      return ({}, { join with
        generatedColumnBuffer :=
          Function.update join.generatedColumnBuffer (columns, ownSide) (some batch) })
  | some replayKeyCols =>
    if batch = [] then return ({}, join)
    else do
      let result ← join.onRuns sender replay replayKeyCols nodes states
        (runs (join.joinKey sender) batch)
      return (result, join)

end ReadySet.Ops
