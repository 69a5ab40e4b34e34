import ReadySet.Node.Base.Operations

/-!
Owns replication from Postgres as the source computes it: how the connector
batches the events of the write-ahead log into actions
(`PostgresWalConnector::next_action`), and how the adapter skips or applies an
action by the stored offsets (`NoriaAdapter::handle_action`).

The peeked event and the events still to come are one queue. Does not own
events of unsupported types, which are ignored before batching, the status
updates sent upstream, and the offsets that are forwarded before a resnapshot.
-/

namespace ReadySet.Replicators

open Data Dataflow Node

universe u

variable {V : Type u}

structure Relation where
  schema : Option String
  name : String
deriving DecidableEq, Repr

/-- What a row event does: `WalEvent::Insert`, `DeleteRow`, `DeleteByKey`,
`UpdateRow` and `UpdateByKey`. -/
inductive RowEvent (V : Type u) where
  | insert (tuple : Row V)
  | deleteRow (tuple : Row V)
  | deleteByKey (key : Key V)
  | updateRow (oldTuple newTuple : Row V)
  | updateByKey (key : Key V) (set : List (Modification V))
deriving DecidableEq, Repr

/-- `WalEvent`. Of a DDL event only its schema and whether its change requires
a resnapshot matter here. -/
inductive WalEvent (V : Type u) where
  | wantsKeepaliveResponse
  | commit
  | row (schema table : String) (event : RowEvent V)
  | truncate (tables : List (String × String))
  | ddlEvent (schema : String) (requiresResnapshot : Bool)
deriving DecidableEq, Repr

/-- `ReplicationAction`, as the Postgres connector makes it. -/
inductive ReplicationAction (V : Type u) where
  | ddlChange (schema : String) (requiresResnapshot : Bool)
  | tableAction (table : Relation) (actions : List (TableOperation V))
deriving DecidableEq, Repr

/-- The events that are still to come, with their LSNs. -/
abbrev Wal (V : Type u) := List (WalEvent V × Nat)

def RowEvent.operations : RowEvent V → List (TableOperation V)
  | .insert tuple => [.insert tuple]
  | .deleteRow tuple => [.deleteRow tuple]
  | .deleteByKey key => [.deleteByKey key]
  | .updateRow oldTuple newTuple => [.deleteRow oldTuple, .insert newTuple]
  | .updateByKey key set => [.update set key]

/-- The relation of a schema and a table. -/
def relationOf (table : String × String) : Relation := ⟨some table.1, table.2⟩

/-- `PostgresPosition` as a `ReplicationOffset`. -/
def position (lsn : Nat) : ReplicationOffset := ⟨lsn, ""⟩

def maxQueuedIndependentActions : Nat := 100

/-! ## The connector -/

/-- How a call of `next_action` ends. -/
inductive NextAction (V : Type u) where
  | returned (action : ReplicationAction V) (pos : ReplicationOffset) (queue : Wal V)
  /-- It waits for more events, with a batch collected so far. -/
  | waiting (table : Relation) (actions : List (TableOperation V))
  | failed (problem : ReadySetError)

/-- The queue with what is left of a truncation in front. -/
def peekTruncate (tables : List (String × String)) (lsn : Nat) (rest : Wal V) : Wal V :=
  if tables.isEmpty then rest else (.truncate tables, lsn) :: rest

/-- The loop of `next_action`. -/
def nextLoop (curTable : Relation) (curLsn : Nat) (actions : List (TableOperation V)) :
    Wal V → NextAction V
  | [] => .waiting curTable actions
  | (event, lsn) :: rest =>
    if maxQueuedIndependentActions ≤ actions.length ∧ lsn ≠ curLsn then
      .returned (.tableAction curTable actions) (position curLsn) ((event, lsn) :: rest)
    else
      match event with
      | .truncate tables =>
        let matching := tables.filter fun table => relationOf table = curTable
        let otherTables := tables.filter fun table => relationOf table ≠ curTable
        if actions.isEmpty then
          if !matching.isEmpty then
            .failed (.internal "assertion failed: matching.is_empty()")
          else
            match otherTables.getLast? with
            | some table =>
              .returned (.tableAction (relationOf table) [.truncate]) (position lsn)
                (peekTruncate otherTables.dropLast lsn rest)
            | none => nextLoop curTable curLsn actions rest
        else
          .returned (.tableAction curTable
              (if matching.isEmpty then actions else actions ++ [.truncate]))
            (position curLsn) (peekTruncate otherTables lsn rest)
      | .row schema table event =>
        if relationOf (schema, table) ≠ curTable then
          if !actions.isEmpty then
            .returned (.tableAction curTable actions) (position curLsn)
              ((.row schema table event, lsn) :: rest)
          else
            nextLoop (relationOf (schema, table)) lsn (actions ++ event.operations) rest
        else nextLoop curTable lsn (actions ++ event.operations) rest
      | .ddlEvent schema requiresResnapshot =>
        if actions.isEmpty then
          .returned (.ddlChange schema requiresResnapshot) (position lsn) rest
        else
          -- the position of the batch is already that of the DDL event
          .returned (.tableAction curTable actions) (position lsn)
            ((.ddlEvent schema requiresResnapshot, lsn) :: rest)
      | .wantsKeepaliveResponse => nextLoop curTable lsn actions rest
      | .commit =>
        if !actions.isEmpty then
          .returned (.tableAction curTable actions) (position lsn) rest
        else nextLoop curTable lsn actions rest

def nextAction (queue : Wal V) : NextAction V := nextLoop ⟨none, ""⟩ 0 [] queue

/-! ## The adapter -/

/-- `NoriaAdapter`: the offsets it keeps, and what it had the tables perform. -/
structure NoriaAdapter (V : Type u) where
  schemaOffset : Option ReplicationOffset
  tableOffsets : Relation → Option (Option ReplicationOffset)
  performed : List (Relation × List (TableOperation V))

/-- `ReplicationOffset::partial_cmp`: whether one offset is at or below another. -/
def atOrBelow (pos cur : ReplicationOffset) : Bool :=
  pos.replicationLogName = cur.replicationLogName && pos.offset ≤ cur.offset

namespace NoriaAdapter

variable (shouldBeProcessed : String → String → Bool) (hasTable : Relation → Bool)

def handleTableActions (adapter : NoriaAdapter V) (table : Relation)
    (actions : List (TableOperation V)) (pos : ReplicationOffset) : NoriaAdapter V :=
  if hasTable table then
    { adapter with
      tableOffsets := Function.update adapter.tableOffsets table (some (some pos))
      performed := adapter.performed ++ [(table, actions ++ [.setReplicationOffset pos])] }
  else adapter

/-- `handle_ddl_change`, when extending the recipe succeeds. -/
def handleDdlChange (adapter : NoriaAdapter V) (requiresResnapshot : Bool)
    (pos : ReplicationOffset) : ReadySetResult (NoriaAdapter V) :=
  if requiresResnapshot then .error .resnapshotNeeded
  else .ok { adapter with schemaOffset := some pos }

def handleAction (adapter : NoriaAdapter V) (action : ReplicationAction V)
    (pos : ReplicationOffset) : ReadySetResult (NoriaAdapter V) :=
  match action with
  | .ddlChange _ requiresResnapshot =>
    if adapter.schemaOffset.any (atOrBelow pos) then .ok adapter
    else adapter.handleDdlChange requiresResnapshot pos
  | .tableAction table actions =>
    if (adapter.tableOffsets table).any fun offset => offset.any (atOrBelow pos) then .ok adapter
    else
      match table.schema with
      | none => .error (.internal "All tables should have a schema in the replicator")
      | some schema =>
        if !shouldBeProcessed schema table.name then .ok adapter
        else .ok (adapter.handleTableActions hasTable table actions pos)

end NoriaAdapter

/-! ## The loop over both -/

/-- Where replication stands after some calls: the adapter, the batch the
connector is still collecting, the events it has not read, and the error that
ended it, if any. -/
structure Progress (V : Type u) where
  adapter : NoriaAdapter V
  collecting : Relation × List (TableOperation V)
  unread : Wal V
  result : ReadySetResult Unit

/-- `main_loop`, for a number of calls of `next_action`. -/
def mainLoop (shouldBeProcessed : String → String → Bool) (hasTable : Relation → Bool) :
    Nat → NoriaAdapter V → Wal V → Progress V
  | 0, adapter, queue => ⟨adapter, (⟨none, ""⟩, []), queue, .ok ()⟩
  | calls + 1, adapter, queue =>
    match nextAction queue with
    | .waiting table actions => ⟨adapter, (table, actions), [], .ok ()⟩
    | .failed problem => ⟨adapter, (⟨none, ""⟩, []), queue, .error problem⟩
    | .returned action pos queue =>
      match adapter.handleAction shouldBeProcessed hasTable action pos with
      | .error problem => ⟨adapter, (⟨none, ""⟩, []), queue, .error problem⟩
      | .ok adapter => mainLoop shouldBeProcessed hasTable calls adapter queue

end ReadySet.Replicators
