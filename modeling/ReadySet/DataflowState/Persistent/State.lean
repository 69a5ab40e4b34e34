import ReadySet.Data.Datum
import ReadySet.DataflowState.KeyedState
import ReadySet.Node.Base.Operations

/-!
Owns the state of a base table on disk as the source computes it
(`PersistentState`): its primary and secondary indices, the keys of their
column families, batches of writes, point lookups, and reopening.

RocksDB is one ordered byte-keyed map per column family; a batch of writes is
applied at once, and reads see committed data only. The primary column family
holds rows where the source holds their bincode form, which reads back the same.
How a key is written and when two values are equal are parameters of the model
(`ValueFormat`). Does not own snapshot mode, compaction and durability, nor
failures of RocksDB itself.
-/

namespace ReadySet.DataflowState.Persistent

open Data Library Dataflow DataflowState
open Node (ReplicationOffset)

universe u v

/-- What the state takes from its values. -/
structure ValueFormat (V : Type u) where
  /-- `PointKey::serialize`, as bincode writes it. -/
  serialize : Key V → Bytes
  /-- `DfValue::eq`. -/
  same : DfValue V → DfValue V → Bool

/-- The format of the source's values. -/
def ValueFormat.ofExternals {X : Type} (env : Externals X) : ValueFormat (Datum X) where
  serialize := Key.serialize env
  same := DfValue.same env

variable {V : Type u}

abbrev Family (β : Type v) := BTreeMap Bytes β Bytes.cmp

/-- An iterator of RocksDB after `seek`: the entries from a key on. -/
def seek {β : Type v} (entries : List (Bytes × β)) (target : Bytes) : List (Bytes × β) :=
  entries.dropWhile fun entry => (Bytes.cmp entry.1 target).isLT

/-! ## The database -/

/-- The column families: the first holds the rows, the others, by number, the
keys under which the first holds them. -/
structure Database (V : Type u) where
  rows : Family (Row V) := ∅
  families : Nat → Family Bytes := fun _ => ∅

inductive BatchOperation (V : Type u) where
  | putRow (key : Bytes) (row : Row V)
  | deleteRow (key : Bytes)
  | put (family : Nat) (key pointed : Bytes)
  | delete (family : Nat) (key : Bytes)

abbrev WriteBatch (V : Type u) := List (BatchOperation V)

def Database.apply (db : Database V) : BatchOperation V → Database V
  | .putRow key row => { db with rows := db.rows.insert key row }
  | .deleteRow key => { db with rows := db.rows.remove key }
  | .put family key pointed =>
    { db with families :=
        Function.update db.families family ((db.families family).insert key pointed) }
  | .delete family key =>
    { db with families := Function.update db.families family ((db.families family).remove key) }

/-- `DB::write_opt`. -/
def Database.write (db : Database V) (batch : WriteBatch V) : Database V :=
  batch.foldl Database.apply db

structure PersistentIndex where
  columnFamily : Nat
  index : Index
  isUnique : Bool
  isPrimary : Bool
deriving DecidableEq, Repr

structure SharedState (V : Type u) where
  db : Database V := {}
  replicationOffset : Option ReplicationOffset := none
  /-- The first index is the primary one. -/
  indices : List PersistentIndex := []

structure PersistentStateHandle (V : Type u) where
  replicationOffset : Option ReplicationOffset := none
  inner : SharedState V := {}

structure PersistentState (V : Type u) where
  db : PersistentStateHandle V := {}
  uniqueKeys : List (List Nat)
  seq : Nat := 0
  epoch : Nat

/-! ## Keys -/

section

variable (format : ValueFormat V)

/-- `serialize_key`: the size of the key, the key, and the bytes that tell
entries of one key apart. -/
def serializeKey (key : Key V) (extra : Bytes) : Bytes :=
  writeVarint (format.serialize key).length ++ format.serialize key ++ extra

def serializePrefix (key : Key V) : Bytes := serializeKey format key []

def serializeSecondary (key : Key V) (rawPrimary : Bytes) : Bytes :=
  serializeKey format key [] ++ rawPrimary

/-- `prefix_transform`: a key without the bytes after its size and key. -/
def prefixTransform (key : Bytes) : Bytes :=
  match readVarint key with
  | some (keySize, _) => key.take ((writeVarint keySize).length + keySize)
  | none => key

def PersistentIndex.buildKey (index : PersistentIndex) (row : Row V) : Key V :=
  row.clonedIndices index.index.columns

/-- Whether the index holds at most one row for the key. -/
def PersistentIndex.holdsOne (index : PersistentIndex) (key : Key V) : Bool :=
  index.isUnique && !hasNull key

/-- The key of a row in the column family of a secondary index. -/
def PersistentIndex.entryKey (index : PersistentIndex) (row : Row V) (serializedPk : Bytes) : Bytes :=
  let key := index.buildKey row
  if index.holdsOne key then serializePrefix format key
  else serializeSecondary format key serializedPk

/-- The key of a row in the primary column family. -/
def PersistentIndex.primaryKey (index : PersistentIndex) (row : Row V) (epoch seq : Nat) : Bytes :=
  let key := index.buildKey row
  if index.holdsOne key then serializePrefix format key
  else serializeKey format key (writeVarint epoch ++ writeVarint seq)

end

def checkIfIndexIsUnique (uniqueIndices : List (List Nat)) (columns : List Nat) : Bool :=
  uniqueIndices.any fun unique => unique.all fun column => columns.contains column

/-! ## Writing -/

namespace PersistentState

variable (format : ValueFormat V) (state : PersistentState V)

def insert (batch : WriteBatch V) (row : Row V) :
    ReadySetResult (PersistentState V × WriteBatch V) :=
  match state.db.inner.indices with
  | [] => .error (.internal "Insert on un-indexed state")
  | primaryIndex :: secondary =>
    -- only rows that no unique key tells apart use up a sequence number
    let seq := if primaryIndex.holdsOne (primaryIndex.buildKey row) then state.seq
      else state.seq + 1
    let serializedPk := primaryIndex.primaryKey format row state.epoch seq
    .ok ({ state with seq := seq },
      batch ++ (.putRow serializedPk row :: secondary.map fun index =>
        .put index.columnFamily (index.entryKey format row serializedPk) serializedPk))

/-- The loop of `remove` over the entries that share the row's primary key. -/
def findRow (keyPrefix : Bytes) (row : Row V) : List (Bytes × Row V) → ReadySetResult Bytes
  | [] => .error (.internal "tried removing non-existent row")
  | (key, value) :: rest =>
    if keyPrefix.isPrefixOf key then
      if value.isEqv row format.same then .ok key else findRow keyPrefix row rest
    else .error (.internal "tried removing non-existent row")

/-- The key under which `remove` expects the row. -/
def removedKey (primaryIndex : PersistentIndex) (row : Row V) : ReadySetResult Bytes :=
  let primaryKey := primaryIndex.buildKey row
  let keyPrefix := serializePrefix format primaryKey
  if primaryIndex.holdsOne primaryKey then .ok keyPrefix
  else findRow format keyPrefix row (seek state.db.inner.db.rows.entries keyPrefix)

def remove (batch : WriteBatch V) (row : Row V) : ReadySetResult (WriteBatch V) :=
  match state.db.inner.indices with
  | [] => .error (.internal "Delete on un-indexed state")
  | primaryIndex :: secondary =>
    (state.removedKey format primaryIndex row).map fun serializedPk =>
      batch ++ (.deleteRow serializedPk :: secondary.map fun index =>
        .delete index.columnFamily (index.entryKey format row serializedPk))

/-- One record of a batch; the database is not written yet. -/
def stage (staged : PersistentState V × WriteBatch V) :
    Record V → ReadySetResult (PersistentState V × WriteBatch V)
  | .positive row => staged.1.insert format staged.2 row
  | .negative row => (staged.1.remove format staged.2 row).map fun batch => (staged.1, batch)

/-- `new <= current` on replication offsets; those of two logs do not compare. -/
def alreadyProcessed (new current : Option ReplicationOffset) : Bool :=
  match new, current with
  | some new, some current =>
    new.replicationLogName == current.replicationLogName && new.offset ≤ current.offset
  | _, _ => false

/-- `PersistentState::process_records`. An error leaves the database as it was. -/
def processRecords (records : List (Record V)) (partialTag : Option Tag)
    (replicationOffset : Option ReplicationOffset) : ReadySetResult (PersistentState V) :=
  if partialTag.isSome then .error (.internal "PersistentState can't be partial")
  else if records.isEmpty && replicationOffset.isNone then .ok state
  else if alreadyProcessed replicationOffset state.db.replicationOffset then .ok state
  else do
    let (staged, batch) ← records.foldlM (stage format) (state, [])
    let inner := staged.db.inner
    return { staged with db :=
      { replicationOffset := replicationOffset.or staged.db.replicationOffset,
        inner := { inner with
          db := inner.db.write batch,
          replicationOffset := replicationOffset.or inner.replicationOffset } } }

/-! ## Indices -/

def addPrimaryIndex (columns : List Nat) (isUnique : Bool) : PersistentState V :=
  if state.db.inner.indices.isEmpty then
    { state with db.inner.indices :=
        [{ columnFamily := 0, index := ⟨.hashMap, columns⟩, isUnique, isPrimary := true }] }
  else state

/-- `PersistentState::add_secondary_index`: a new column family, filled from the
stored rows. -/
def addSecondaryIndex (index : Index) (isUnique : Bool) : PersistentState V :=
  let inner := state.db.inner
  let added : PersistentIndex :=
    { columnFamily := inner.indices.length, index, isUnique, isPrimary := false }
  let batch : WriteBatch V := inner.db.rows.entries.map fun entry =>
    .put added.columnFamily (added.entryKey format entry.2 entry.1) entry.1
  let cleared := { inner.db with families := Function.update inner.db.families added.columnFamily ∅ }
  { state with db.inner :=
      { inner with indices := inner.indices ++ [added], db := cleared.write batch } }

def addKey (index : Index) (tags : Option (List Tag)) : ReadySetResult (PersistentState V) :=
  if tags.isSome then .error (.panicked "Bases can't be partial")
  else if state.db.inner.indices.any fun existing => existing.index = index then .ok state
  else
    let isUnique := checkIfIndexIsUnique state.uniqueKeys index.columns
    if state.db.inner.indices.isEmpty then
      -- a primary index is always a hash map
      let state := state.addPrimaryIndex index.columns isUnique
      .ok (if index.indexType = .hashMap then state
        else state.addSecondaryIndex format index isUnique)
    else .ok (state.addSecondaryIndex format index isUnique)

/-- `PersistentState::new` on an empty database. -/
def new (uniqueKeys : List (List Nat)) : PersistentState V :=
  let state : PersistentState V := { uniqueKeys, epoch := 1 }
  match uniqueKeys with
  | [] => state
  | first :: _ => state.addPrimaryIndex first true

/-- `PersistentState::new` on the database of an earlier run. -/
def reopen : PersistentState V :=
  let inner := state.db.inner
  { uniqueKeys := state.uniqueKeys,
    seq := 0,
    epoch := state.epoch + 1,
    db :=
      { replicationOffset := inner.replicationOffset,
        inner := { inner with indices := inner.indices.map fun index =>
          { index with isUnique := checkIfIndexIsUnique state.uniqueKeys index.index.columns } } } }

def rows : Multiset (Row V) := state.db.inner.db.rows.values

end PersistentState

/-! ## Point lookups -/

section

variable (format : ValueFormat V)

def SharedState.index (shared : SharedState V) (indexType : IndexType) (columns : List Nat) :
    ReadySetResult PersistentIndex :=
  match shared.indices.find? fun index => index.index = ⟨indexType, columns⟩ with
  | some index => .ok index
  | none => .error (.panicked "lookup on non-indexed column set")

def Database.getRow (db : Database V) (pk : Bytes) : ReadySetResult (Row V) :=
  match db.rows.get? pk with
  | some row => .ok row
  | none => .error (.panicked "Existing primary key")

/-- The row at which an iterator over the primary column family stands after
`seek`. -/
def Database.seekRow (db : Database V) (pk : Bytes) : ReadySetResult (Row V) :=
  match seek db.rows.entries pk with
  | (_, row) :: _ => .ok row
  | [] => .error (.panicked "Existing primary key")

/-- `get_pinned_cf` on the column family of an index, with the row it leads to. -/
def PersistentIndex.get (index : PersistentIndex) (db : Database V) (key : Bytes) :
    Option (ReadySetResult (Row V)) :=
  if index.isPrimary then (db.rows.get? key).map .ok
  else ((db.families index.columnFamily).get? key).map db.getRow

/-- The entries of the column family of an index, with the rows they lead to. -/
def PersistentIndex.entries (index : PersistentIndex) (db : Database V) :
    List (Bytes × ReadySetResult (Row V)) :=
  if index.isPrimary then db.rows.entries.map fun entry => (entry.1, .ok entry.2)
  else (db.families index.columnFamily).entries.map fun entry => (entry.1, db.seekRow entry.2)

/-- The entries from `seek` to the end of the prefix. -/
def withPrefix {β : Type v} (entries : List (Bytes × β)) (keyPrefix : Bytes) : List (Bytes × β) :=
  (seek entries keyPrefix).takeWhile fun entry => keyPrefix.isPrefixOf entry.1

/-- The entries of an iterator with `prefix_same_as_start`. -/
def samePrefix {β : Type v} (entries : List (Bytes × β)) (start : Bytes) : List (Bytes × β) :=
  (seek entries start).takeWhile fun entry => prefixTransform entry.1 = prefixTransform start

/-- `<` on the replication offsets of a handle and of the state. -/
def isBehind (handle inner : Option ReplicationOffset) : Bool :=
  match handle, inner with
  | none, some _ => true
  | some handle, some inner =>
    handle.replicationLogName == inner.replicationLogName && handle.offset < inner.offset
  | _, none => false

/-- The rows `do_lookup` reads from an index. -/
def PersistentIndex.lookupRows (index : PersistentIndex) (db : Database V) (key : Key V) :
    ReadySetResult (List (Row V)) :=
  let keyPrefix := serializePrefix format key
  if index.holdsOne key then
    match index.get db keyPrefix with
    | none => .ok []
    | some row => row.map fun row => [row]
  else (samePrefix (index.entries db) keyPrefix).mapM Prod.snd

/-- `PersistentStateHandle::lookup`, with `do_lookup`. -/
def PersistentStateHandle.lookup (handle : PersistentStateHandle V) (columns : List Nat)
    (key : Key V) : ReadySetResult (LookupResult V) :=
  if isBehind handle.replicationOffset handle.inner.replicationOffset then .ok .missing
  else
    match handle.inner.index .hashMap columns with
    | .error error => .error error
    | .ok index => (index.lookupRows format handle.inner.db key).map .some

/-- One key of `lookup_multi`. -/
def PersistentIndex.lookupOne (index : PersistentIndex) (db : Database V) (key : Key V) :
    ReadySetResult (List (Row V)) :=
  let found := withPrefix (index.entries db) (serializePrefix format key)
  (if index.holdsOne key then found.take 1 else found).mapM Prod.snd

def PersistentStateHandle.lookupMulti (handle : PersistentStateHandle V) (columns : List Nat)
    (keys : List (Key V)) : ReadySetResult (List (List (Row V))) :=
  if keys.isEmpty then .ok []
  else
    match handle.inner.index .hashMap columns with
    | .error error => .error error
    | .ok index => keys.mapM (index.lookupOne format handle.inner.db)

def PersistentState.lookup (state : PersistentState V) (columns : List Nat) (key : Key V) :
    ReadySetResult (LookupResult V) :=
  state.db.lookup format columns key

def PersistentState.lookupMulti (state : PersistentState V) (columns : List Nat)
    (keys : List (Key V)) : ReadySetResult (List (List (Row V))) :=
  state.db.lookupMulti format columns keys

end

end ReadySet.DataflowState.Persistent
