import ReadySet.Library.Runs
import ReadySet.Library.SortedMap
import ReadySet.Dataflow.Processing

/-!
Owns the union operator as the source computes it: the projection of each
parent's rows, the bag-union filter, the capture and release of full replays
and of partial replay pieces, and the updates both absorb on the way.

Buffered pieces are kept in a `BTreeMap` over `BufferedReplayKey`, here a
`SortedMap` under the source's own comparison, which is not an order on all
keys. Does not own what the replays amount to.
-/

namespace ReadySet.Ops

open Data Library Dataflow

universe u

inductive DuplicateMode where
  | bagUnion
  | unionAll
deriving DecidableEq, Repr

/-- `Emit`: pass everything through from the shards of one parent, or select
the columns of each parent, with the parents in index order. -/
inductive Emit where
  | allFrom
  | project (emit : List (LocalNodeIndex × List Nat))
deriving DecidableEq, Repr

inductive FullWait (V : Type u) where
  | none
  | ongoing (started : Finset LocalNodeIndex) (finished : Nat) (buffered : List (Record V))
deriving DecidableEq

/-- `ReplayPieces`, without the eviction mark: the pieces of one replayed key
by the parent that sent them. -/
abbrev ReplayPieces (V : Type u) := List (LocalNodeIndex × List (Record V))

structure BufferedReplayKey (V : Type u) where
  tag : Tag
  key : KeyComparison V
  requestingShard : Nat
  requestingReplica : Nat
deriving DecidableEq, Repr

section

variable {V : Type u} [LinearOrder V]

/-- The comparison of the keys in `BufferedReplayKey::cmp`. The arm for a range
against a point binds the lower bound as `u` and the upper one as `l`. -/
def cmpReplayKeys : KeyComparison V → KeyComparison V → Ordering
  | .equal left, .equal right => Key.cmp left right
  | .range lower upper, .range otherLower otherUpper =>
    (cmpStartbound lower otherLower).then (cmpEndbound upper otherUpper)
  | .equal key, .range lower upper =>
    (cmpStartbound (.included key) lower).then (cmpEndbound (.included key) upper)
  | .range u l, .equal key =>
    (cmpStartbound l (.included key)).then (cmpEndbound u (.included key))

def BufferedReplayKey.cmp (left right : BufferedReplayKey V) : Ordering :=
  (((compare left.tag right.tag).then (cmpReplayKeys left.key right.key)).then
    (compare left.requestingShard right.requestingShard)).then
    (compare left.requestingReplica right.requestingReplica)

end

/-- `BagUnionState`: for each row hash the parent with more copies of the row,
and how many more. -/
abbrev BagUnionState := Nat → Option (Side × Nat)

/-- `BagUnionState::process`: whether the record is emitted. -/
def BagUnionState.process {V : Type u} (state : BagUnionState) (hash : Row V → Nat)
    (sender : Side) (record : Record V) : Bool × BagUnionState :=
  let rowHash := hash record.value
  match state rowHash with
  | some (rowSide, size) =>
    let grows := record.isPositive == (rowSide == sender)
    let size := if grows then size + 1 else size - 1
    (rowSide == sender,
      Function.update state rowHash (if size = 0 then none else some (rowSide, size)))
  | none =>
    if record.isPositive then (true, Function.update state rowHash (some (sender, 1)))
    else (false, Function.update state rowHash (some (otherSide sender, 1)))

structure Union (V : Type u) where
  emit : Emit
  bagUnionState : Option BagUnionState
  replayKey : List ((Tag × Nat) × List Nat)
  replayPieces : List (BufferedReplayKey V × ReplayPieces V)
  required : Nat
  fullWaitState : FullWait V

/-- What the operator takes from its surroundings: the hash of a row, and the
order in which a hash map of pieces is iterated. -/
structure Hashing (V : Type u) where
  hash : Row V → Nat
  order : ReplayPieces V → ReplayPieces V
  order_perm : ∀ pieces, (order pieces).Perm pieces

/-- Maps that are iterated in insertion order, and a hash that never separates. -/
def Hashing.inInsertionOrder {V : Type u} : Hashing V where
  hash _ := 0
  order pieces := pieces
  order_perm _ := List.Perm.refl _

namespace Union

variable {V : Type u}

/-- The check of `Union::new` on the columns of one parent. -/
def checkOrder (columns : List Nat) : ReadySetResult Unit :=
  if columns.isEmpty then .error (.panicked "index out of bounds")
  else if columns.IsChain (· ≤ ·) then .ok ()
  else .error (.internal s!"union doesn't support column reordering; got emit = {columns}")

/-- `Union::new`, with the parents' local indices as `on_commit` fills them in. -/
def new (emit : List (LocalNodeIndex × List Nat)) (duplicateMode : DuplicateMode) :
    ReadySetResult (Union V) :=
  if emit.isEmpty then .error (.internal "assertion failed: !emit.is_empty()")
  else
    match emit.forM fun entry => checkOrder entry.2 with
    | .error error => .error error
    | .ok _ => .ok
        { emit := .project emit
          bagUnionState := if duplicateMode = .bagUnion then some fun _ => none else none
          replayKey := []
          replayPieces := []
          required := emit.length
          fullWaitState := .none }

variable (union : Union V)

def isShardMerger : Bool := union.emit = .allFrom

/-- `results.retain(|rec| bus.process(parent, rec))`. -/
def retainBag (hash : Row V → Nat) (sender : Side) :
    BagUnionState → List (Record V) → List (Record V) × BagUnionState
  | bag, [] => ([], bag)
  | bag, record :: records =>
    let (emitted, bag) := bag.process hash sender record
    let (later, bag) := retainBag hash sender bag records
    (if emitted then record :: later else later, bag)

/-- The selected columns of a parent's records. -/
def project (columns : List Nat) (records : List (Record V)) : List (Record V) :=
  records.map (Signed.map fun row => row.clonedIndices columns)

def onInput (hashing : Hashing V) (sender : LocalNodeIndex) (records : List (Record V)) :
    ReadySetResult (List (Record V) × Union V) :=
  match union.emit with
  | .allFrom => .ok (records, union)
  | .project emit =>
    match emit.lookup sender with
    | none => .error (.panicked "no entry found for key")
    | some columns =>
      let results := project columns records
      match union.bagUnionState with
      | none => .ok (results, union)
      | some bag =>
        match emit.head? with
        | none => .error (.internal
            "Union node with DuplicateMode::BagUnion must have exactly 2 parents")
        | some (firstParent, _) =>
          let side := if sender = firstParent then Side.left else Side.right
          let (results, bag) := retainBag hashing.hash side bag results
          .ok (results, { union with bagUnionState := some bag })

/-- `rkey_from`: the parent a replay key is kept for. -/
def replayKeyFrom (sender : LocalNodeIndex) : Nat := if union.isShardMerger then 0 else sender

/-! ## Updates -/

variable [LinearOrder V]

/-- Whether a record's key columns lie in a key. -/
def inKey (cols : List Nat) (key : KeyComparison V) (record : Record V) : Bool :=
  key.contains (record.value.clonedIndices cols)

/-- The records of a batch that belong to a buffered replay. -/
def matchingRecords (columns : List Nat) (key : KeyComparison V) (batch : List (Record V)) :
    List (Record V) :=
  batch.filter (inKey columns key)

/-- One buffered replay and an update batch: records that follow a piece of
their parent are added to the piece. -/
def absorbPiece (sender : LocalNodeIndex) (batch : List (Record V))
    (entry : BufferedReplayKey V × ReplayPieces V) :
    ReadySetResult (BufferedReplayKey V × ReplayPieces V) :=
  let (replay, pieces) := entry
  if pieces.isEmpty then .error (.internal "empty pieces bucket left in replay pieces")
  else if pieces.lookup sender = none then .ok entry
  else
    match union.replayKey.lookup (replay.tag, union.replayKeyFrom sender) with
    | none => .error (.panicked "no entry found for key")
    | some columns =>
      .ok (replay, pieces.map fun (parent, records) =>
        if parent = sender then
          (parent, records ++ matchingRecords columns replay.key batch)
        else (parent, records))

/-- Whether an update belongs to a full replay that is still held back. -/
def absorbsForFull (sender : LocalNodeIndex) : Bool :=
  match union.fullWaitState with
  | .none => false
  | .ongoing started _ _ => started.card ≠ union.required ∧ sender ∈ started

/-- `on_input_raw` of an update batch. -/
def onUpdate (hashing : Hashing V) (sender : LocalNodeIndex) (batch : List (Record V)) :
    ReadySetResult (RawProcessingResult V × Union V) :=
  if union.absorbsForFull sender then
    if union.replayKey.isEmpty ∨ union.replayPieces.isEmpty then do
      let (results, union) ← union.onInput hashing sender batch
      match union.fullWaitState with
      | .ongoing started finished buffered =>
        return (.regular { results }, { union with
          fullWaitState := .ongoing started finished (buffered ++ results) })
      | .none => .error (.panicked "internal error: entered unreachable code")
    else .error (.internal
      "assertion failed: self.replay_key.is_empty() || self.replay_pieces.is_empty()")
  else if union.replayPieces.isEmpty then do
    let (results, union) ← union.onInput hashing sender batch
    return (.regular { results }, union)
  else do
    let replayPieces ← union.replayPieces.mapM (union.absorbPiece sender batch)
    let (results, union) ← { union with replayPieces }.onInput hashing sender batch
    return (.regular { results }, union)

/-! ## Full replays -/

/-- `on_input_raw` of a piece of a full replay. -/
def onFull (hashing : Hashing V) (sender : LocalNodeIndex) (rows : List (Record V))
    (last : Bool) : ReadySetResult (RawProcessingResult V × Union V) := do
  let (rows, union) ← union.onInput hashing sender rows
  match union.fullWaitState with
  | .none =>
    if union.required = 1 then return (.fullReplay rows last, union)
    else
      return (.capturedFull, { union with
        fullWaitState := .ongoing {sender} (if last then 1 else 0) rows })
  | .ongoing started finished buffered =>
    let finished := if last then finished + 1 else finished
    if finished = union.required then
      return (.fullReplay (buffered ++ rows) true, { union with fullWaitState := .none })
    else if started.card ≠ union.required then
      if sender ∉ started ∧ (insert sender started).card = union.required then
        return (.fullReplay (buffered ++ rows) false, { union with
          fullWaitState := .ongoing (insert sender started) finished [] })
      else
        return (.capturedFull, { union with
          fullWaitState := .ongoing (insert sender started) finished (buffered ++ rows) })
    else
      return (.fullReplay rows false, { union with
        fullWaitState := .ongoing started finished buffered })

/-! ## Partial replays -/

/-- The parents' columns for the output columns of a replay key. -/
def emitColumns (columns : List Nat) (cols : List Nat) : ReadySetResult (List Nat) :=
  match cols.mapM (columns[·]?) with
  | none => .error (.panicked "index out of bounds")
  | some columns => .ok columns

/-- The replay keys after the first piece of a tag: one for every parent. -/
def learnReplayKey (sender : LocalNodeIndex) (tag : Tag) (cols : List Nat) :
    ReadySetResult (List ((Tag × Nat) × List Nat)) :=
  if (union.replayKey.lookup (tag, union.replayKeyFrom sender)).isSome then
    .ok union.replayKey
  else
    match union.emit with
    | .allFrom => .ok (((tag, 0), cols) :: union.replayKey)
    | .project emit =>
      if (emit.lookup sender).isNone then .error (.panicked "no entry found for key")
      else do
        let learned ← emit.mapM fun (parent, columns) => do
          let columns ← emitColumns columns cols
          return ((tag, parent), columns)
        return learned ++ union.replayKey

/-- The pieces, rows and key sets while the keys of a piece are worked off. -/
structure PieceState (V : Type u) where
  rowsByKey : List (Record V)
  union : Union V
  rows : List (Record V) := []
  released : List (KeyComparison V) := []
  captured : List (KeyComparison V) := []

def releasePieces (hashing : Hashing V) :
    Union V → ReplayPieces V → ReadySetResult (List (Record V) × Union V)
  | union, [] => .ok ([], union)
  | union, (parent, records) :: pieces => do
      let (first, union) ← union.onInput hashing parent records
      let (later, union) ← releasePieces hashing union pieces
      return (first ++ later, union)

/-- The pieces already buffered for a replay. -/
def piecesOf (replay : BufferedReplayKey V) : ReplayPieces V :=
  (SortedMap.find? BufferedReplayKey.cmp replay union.replayPieces).getD []

/-- One key of a piece. The rows whose key columns lie in the key are taken out
of the piece, and stored or released. -/
def onKey (hashing : Hashing V) (sender : LocalNodeIndex) (cols : List Nat)
    (replayOf : KeyComparison V → BufferedReplayKey V) (state : PieceState V)
    (key : KeyComparison V) : ReadySetResult (PieceState V) :=
  if key.isValidRange = false then .error (.panicked "range start is greater than range end")
  else
    let taken := state.rowsByKey.filter (inKey cols key)
    let rowsByKey := state.rowsByKey.filter fun record => !inKey cols key record
    let replay := replayOf key
    let pieces := state.union.piecesOf replay
    if (pieces.lookup sender).isSome then
      .error (.panicked "downstream shard double-requested key")
    else if pieces.length + 1 = state.union.required then do
      let union := { state.union with
        replayPieces := SortedMap.erase BufferedReplayKey.cmp replay state.union.replayPieces }
      let (rows, union) ←
        releasePieces hashing union (hashing.order (pieces ++ [(sender, taken)]))
      return { state with
        rowsByKey, union, rows := state.rows ++ rows, released := state.released ++ [key] }
    else
      return { state with
        rowsByKey
        union := { state.union with
          replayPieces := SortedMap.insert BufferedReplayKey.cmp replay
            (pieces ++ [(sender, taken)]) state.union.replayPieces }
        captured := state.captured ++ [key] }

/-- `on_input_raw` of a partial replay piece. The rows of the piece are grouped
by their values in the replay's key columns. -/
def onPiece (hashing : Hashing V) (sender : LocalNodeIndex) (rows : List (Record V))
    (cols : List Nat) (keys : List (KeyComparison V)) (shard replica : Nat) (tag : Tag)
    (unishard : Bool) : ReadySetResult (RawProcessingResult V × Union V) :=
  if union.isShardMerger && unishard then
    if union.replayPieces.isEmpty then .ok (.replayPiece rows keys [], union)
    else .error (.internal "assertion failed: self.replay_pieces.is_empty()")
  else
    match union.learnReplayKey sender tag cols with
    | .error error => .error error
    | .ok replayKey =>
      if cols.isEmpty && !rows.isEmpty then
        .error (.panicked "called `Result::unwrap()` on an `Err` value: Size0Error")
      else do
        let rowsByKey := stableSort Key.cmp
          (fun record : Record V => record.value.clonedIndices cols) rows
        let replayOf := fun key : KeyComparison V => (
          { tag, key, requestingShard := shard, requestingReplica := replica } :
            BufferedReplayKey V)
        let state ← keys.foldlM (onKey hashing sender cols replayOf)
          { rowsByKey, union := { union with replayKey } }
        return (.replayPiece state.rows state.released state.captured, state.union)

def onInputRaw (hashing : Hashing V) (sender : LocalNodeIndex) (records : List (Record V))
    (replay : ReplayContext V) : ReadySetResult (RawProcessingResult V × Union V) :=
  match replay with
  | .none => union.onUpdate hashing sender records
  | .full last => union.onFull hashing sender records last
  | .partial_ cols keys shard replica tag unishard =>
    union.onPiece hashing sender records cols keys shard replica tag unishard

end Union

end ReadySet.Ops
