import ReadySet.Library.Runs
import ReadySet.DataflowState.SingleState

/-!
Owns the in-memory state of a node as the source computes it (`MemoryState`):
strict indices over one table, weak indices over the rows that the strict ones
store, tags that name the strict indices, lookups with their fallbacks to other
indices, and evictions.

Does not own memory accounting and replication offsets. The bytes that an
eviction frees, which depend on how rows are shared, are a parameter.
-/

namespace ReadySet.DataflowState

open Data Library Dataflow

universe u

variable {V : Type u} [LinearOrder V]

/-- The order in which a `HashBag` hands out its rows. -/
structure BagOrder (V : Type u) where
  list : Rows V → List (Row V)
  list_coe : ∀ rows, (list rows : Multiset (Row V)) = rows

structure MemoryState (V : Type u) [LinearOrder V] where
  state : List (SingleState V) := []
  weakIndices : List (List Nat × KeyedState V) := []
  byTag : Tag → Option Nat := fun _ => none

namespace MemoryState

variable (memory : MemoryState V) (order : BagOrder V)

def stateFor (cols : List Nat) (indexType : IndexType) : Option Nat :=
  memory.state.findIdx? fun single => single.columns = cols ∧ single.indexType = indexType

def isPartial : Bool := memory.state.any SingleState.isPartial

/-- The rows of an index copied into another. -/
def copyRows (old new : SingleState V) : SingleState V :=
  old.values.foldl (fun new rows =>
    (order.list rows).foldl (fun new row => (new.insertRow row).2) new) new

/-- The tags of `MemoryState::add_key` name an index. -/
def assignTags (tags : List Tag) (position : Nat) : Tag → Option Nat :=
  tags.foldl (fun byTag tag => Function.update byTag tag (some position)) memory.byTag

def addKey (index : Index) (tags : Option (List Tag)) : ReadySetResult (MemoryState V) :=
  match memory.stateFor index.columns index.indexType with
  | some position => .ok { memory with byTag := memory.assignTags (tags.getD []) position }
  | none =>
    let byTag := memory.assignTags (tags.getD []) memory.state.length
    match SingleState.new index tags.isSome with
    | .error error => .error error
    | .ok new =>
      match tags, memory.state with
      | some _, _ => .ok { memory with state := memory.state ++ [new], byTag }
      | none, [] => .ok { memory with state := [new], byTag }
      | none, first :: _ =>
        if first.isPartial then
          .error (.panicked "assertion failed: !old[0].partial()")
        else .ok { memory with state := memory.state ++ [copyRows order first new], byTag }

def addWeakKey (index : Index) : MemoryState V :=
  { memory with weakIndices :=
      memory.weakIndices.filter (fun weak => weak.1 ≠ index.columns) ++
        [(index.columns, .ofIndex index)] }

/-- A row is added to every weak index. -/
def insertWeak (row : Row V) : MemoryState V :=
  { memory with weakIndices := memory.weakIndices.map fun weak =>
      (weak.1, (weak.2.insert weak.1 row false).2) }

/-- A row is removed from every weak index. -/
def removeWeak (row : Row V) : MemoryState V :=
  { memory with weakIndices := memory.weakIndices.map fun weak =>
      (weak.1, (weak.2.remove weak.1 row).state) }

/-- `MemoryState::insert`: a tagged row goes to the tag's index only. -/
def insert (row : Row V) (partialTag : Option Tag) : ReadySetResult (Bool × MemoryState V) :=
  match partialTag with
  | some tag =>
    match memory.byTag tag with
    | none => .ok (true, memory)
    | some position =>
      match memory.state[position]? with
      | none => .error (.panicked "index out of bounds")
      | some single =>
        let (hit, single) := single.insertRow row
        let memory := { memory with state := memory.state.set position single }
        .ok (hit, if hit then memory.insertWeak row else memory)
  | none =>
    let hit := memory.state.any fun single => (single.insertRow row).1
    let memory := { memory with state := memory.state.map fun single => (single.insertRow row).2 }
    .ok (hit, if hit then memory.insertWeak row else memory)

/-- `MemoryState::remove`, from all indices whatever the tag. -/
def remove (row : Row V) : Bool × MemoryState V :=
  let hit := memory.state.any fun single => (single.removeRow row).1
  let memory := { memory with state := memory.state.map fun single => (single.removeRow row).2 }
  (hit, if hit then memory.removeWeak row else memory)

/-- One record of `MemoryState::process_records`, and whether it is kept. -/
def processRecord (partialTag : Option Tag) (record : Record V) :
    ReadySetResult (Bool × MemoryState V) :=
  match record with
  | .positive row => memory.insert row partialTag
  | .negative row => .ok (memory.remove row)

/-- `MemoryState::process_records`, with the records it keeps: a partial state
drops those that hit holes only, a full one ignores the tag and keeps all. -/
def processRecords (records : List (Record V)) (partialTag : Option Tag) :
    ReadySetResult (List (Record V) × MemoryState V) :=
  if memory.isPartial then
    records.foldlM
      (fun state record => do
        let (hit, memory) ← state.2.processRecord partialTag record
        return (if hit then state.1 ++ [record] else state.1, memory))
      ([], memory)
  else do
    let memory ← records.foldlM
      (fun memory record => do
        let (_, memory) ← memory.processRecord none record
        return memory)
      memory
    return (records, memory)

/-- The index a tag names, changed. -/
def onTagged (tag : Tag) (change : SingleState V → ReadySetResult (SingleState V)) :
    ReadySetResult (MemoryState V) :=
  match memory.byTag tag with
  | none => .error (.panicked "no entry found for key")
  | some position =>
    match memory.state[position]? with
    | none => .error (.panicked "index out of bounds")
    | some single => do
        let single ← change single
        return { memory with state := memory.state.set position single }

def markFilled (key : KeyComparison V) (tag : Tag) : ReadySetResult (MemoryState V) :=
  memory.onTagged tag fun single => single.markFilled key

def markHole (key : KeyComparison V) (tag : Tag) : ReadySetResult (MemoryState V) :=
  memory.onTagged tag fun single => single.markHole key

/-! ## Evictions -/

/-- Evicted rows are removed from the weak indices, one by one. -/
def removeAllWeak (rows : Rows V) : MemoryState V :=
  (order.list rows).foldl (fun memory row => memory.removeWeak row) memory

/-- `MemoryState::evict_keys`, with the index evicted from. A tag may not be
known yet. -/
def evictKeys (tag : Tag) (keys : List (KeyComparison V)) :
    ReadySetResult (Option Index × MemoryState V) :=
  match memory.byTag tag with
  | none => .ok (none, memory)
  | some position =>
    match memory.state[position]? with
    | none => .error (.panicked "index out of bounds")
    | some single =>
      match single.evictKeys keys with
      | .error error => .error error
      | .ok (rows, single) =>
        let memory := { memory with state := memory.state.set position single }
        .ok (some single.index, memory.removeAllWeak order rows)

/-- The random choices of an eviction, and the bytes that it frees. -/
structure Eviction (V : Type u) [LinearOrder V] where
  /-- The index. -/
  position : Nat
  /-- The seed of each round. -/
  seeds : Nat → Nat
  /-- What the rows and the key of a round amount to once they are gone. -/
  freed : MemoryState V → Key V → Rows V → Nat
  bytes : Nat

/-- The loop of `MemoryState::evict_bytes`. Each round removes a key, so that
as many rounds as the index has keys are enough. -/
def evictLoop (eviction : Eviction V) :
    Nat → Nat × List (Key V) × MemoryState V → Nat × List (Key V) × MemoryState V
  | 0, result => result
  | rounds + 1, (bytesFreed, keysEvicted, memory) =>
    if eviction.bytes ≤ bytesFreed then (bytesFreed, keysEvicted, memory)
    else
      match memory.state[eviction.position]? with
      | none => (bytesFreed, keysEvicted, memory)
      | some single =>
        match single.evictRandom (eviction.seeds keysEvicted.length) with
        | (none, _) => (bytesFreed, keysEvicted, memory)
        | (some (key, rows), single) =>
          let memory := { memory with state := memory.state.set eviction.position single }
          let memory := memory.removeAllWeak order rows
          evictLoop eviction rounds
            (bytesFreed + eviction.freed memory key rows, keysEvicted ++ [key], memory)

/-- `MemoryState::evict_bytes`, with the index and the keys evicted. -/
def evictBytes (eviction : Eviction V) :
    ReadySetResult (Option (Index × List (Key V)) × MemoryState V) :=
  match memory.state[eviction.position]? with
  | none => .error (.panicked "Rng.gen_range called with low >= high")
  | some single =>
    let (bytesFreed, keysEvicted, memory) :=
      evictLoop order eviction single.state.keyCount (0, [], memory)
    .ok (if bytesFreed = 0 then none else some (single.index, keysEvicted), memory)

/-! ## Lookups -/

/-- `PointKey::from`. -/
def pointKeyFrom (values : List (DfValue V)) : ReadySetResult (Key V) :=
  if values = [] then .error (.panicked "Empty iterator passed to PointKey::from_iter")
  else .ok values

/-- The position of each column: the last one wins, as in a collected map. -/
def colPosition (columns : List Nat) (col : Nat) : Option Nat :=
  (columns.zipIdx.reverse.find? fun entry => entry.1 = col).map Prod.snd

/-- The key in the order of other columns. -/
def shuffledKey (target columns : List Nat) (key : Key V) : Key V :=
  columns.zipIdx.foldl
    (fun shuffled entry =>
      match colPosition target entry.1, key[entry.2]? with
      | some position, some cell => shuffled.set position cell
      | _, _ => shuffled)
    (List.replicate key.length .none)

/-- The part of the key that a narrower index is keyed on, with the positions
in that index. Ties in the sort need repeated columns. -/
def narrowPositions (target columns : List Nat) (key : Key V) : List (Nat × DfValue V) :=
  columns.zipIdx.filterMap fun entry =>
    match target.idxOf? entry.1, key[entry.2]? with
    | some position, some cell => some (position, cell)
    | _, _ => none

def rowMatches (columns : List Nat) (key : Key V) (row : Row V) : Bool :=
  columns.zipIdx.all fun entry => row[entry.1]? = key[entry.2]?

/-- A lookup in an index with the same columns and another type. -/
def lookupOtherType (single : SingleState V) (columns : List Nat) (key : Key V)
    (indexType : IndexType) : ReadySetResult (BagResult V) :=
  if single.columns = columns ∧ single.indexType ≠ indexType then single.lookup key
  else .ok .missing

/-- A lookup in an index with the same columns in another order. -/
def lookupShuffled (single : SingleState V) (columns : List Nat) (key : Key V) :
    ReadySetResult (BagResult V) :=
  if single.columns ≠ columns ∧ single.columns.length = columns.length ∧
      columns.all fun col => (colPosition single.columns col).isSome then
    match pointKeyFrom (shuffledKey single.columns columns key) with
    | .error error => .error error
    | .ok shuffled => single.lookup shuffled
  else .ok .missing

/-- A lookup in an index with fewer columns, whose rows are filtered. -/
def lookupNarrower (single : SingleState V) (columns : List Nat) (key : Key V) :
    ReadySetResult (BagResult V) :=
  let positions := narrowPositions single.columns columns key
  if single.columns.length < columns.length ∧ positions.length = single.columns.length then
    match pointKeyFrom ((stableSort compare Prod.fst positions).map Prod.snd) with
    | .error error => .error error
    | .ok narrow =>
      match single.lookup narrow with
      | .error error => .error error
      | .ok .missing => .ok .missing
      | .ok (.some rows) => .ok (.some (rows.filter fun row => rowMatches columns key row = true))
  else .ok .missing

/-- The first of two lookups that does not miss. -/
def orElse (first : ReadySetResult (BagResult V)) (second : ReadySetResult (BagResult V)) :
    ReadySetResult (BagResult V) :=
  match first with
  | .ok .missing => second
  | other => other

/-- The loop over the other indices in `MemoryState::lookup`. -/
def lookupOthers (columns : List Nat) (key : Key V) (indexType : IndexType) :
    List (SingleState V) → ReadySetResult (BagResult V)
  | [] => .ok .missing
  | single :: rest =>
    orElse (lookupOtherType single columns key indexType)
      (orElse (lookupShuffled single columns key)
        (orElse (lookupNarrower single columns key)
          (lookupOthers columns key indexType rest)))

def lookup (columns : List Nat) (key : Key V) : ReadySetResult (BagResult V) :=
  match (memory.stateFor columns .hashMap).or (memory.stateFor columns .bTreeMap) with
  | none => .error (.panicked "lookup on non-indexed column set")
  | some position =>
    match memory.state[position]? with
    | none => .error (.panicked "index out of bounds")
    | some single =>
      orElse (single.lookup key) (lookupOthers columns key single.indexType memory.state)

def lookupWeak (columns : List Nat) (key : Key V) : ReadySetResult (Option (Rows V)) :=
  match memory.weakIndices.find? fun weak => weak.1 = columns with
  | none => .error (.panicked "no entry found for key")
  | some weak => weak.2.lookup key

end MemoryState

end ReadySet.DataflowState
