import ReadySet.Dataflow.Processing

/-!
Owns the operations on base tables as replication sends them, and the offsets in the
replication log that go with them. Does not own what a base node makes of them
(`Base::process_ops`).
-/

namespace ReadySet.Node

open Data Library Dataflow

universe u

variable {V : Type u}

/-! ## Replication offsets -/

structure ReplicationOffset where
  offset : Nat
  replicationLogName : String
deriving DecidableEq, Repr

/-! ## Table operations -/

inductive Operation where
  | add
  | sub
deriving DecidableEq, Repr

inductive Modification (V : Type u) where
  | set (value : DfValue V)
  | apply (operation : Operation) (value : DfValue V)
  | none
deriving DecidableEq, Repr

inductive TableOperation (V : Type u) where
  | insert (row : Row V)
  | deleteByKey (key : Key V)
  | deleteRow (row : Row V)
  | insertOrUpdate (row : Row V) (update : List (Modification V))
  | update (update : List (Modification V)) (key : Key V)
  | truncate
  | setReplicationOffset (offset : ReplicationOffset)
  | setSnapshotMode (enabled : Bool)
deriving DecidableEq, Repr

end ReadySet.Node
