import ReadySet.Dataflow.Processing

/-!
Owns the packets that nodes of different domains send each other
(`payload.rs`): updates, replay pieces and evictions, the address of a replica
of a domain, and how a sender replicates what it sends.

Does not own the packets that carry no records or keys, nor the trace a message
may carry for instrumentation.
-/

namespace ReadySet.Dataflow

open Data Library

universe u

variable {V : Type u}

structure Link where
  src : LocalNodeIndex
  dst : LocalNodeIndex
deriving DecidableEq, Repr

/-- `ReplayPieceContext`. The key set is given in its iteration order. -/
inductive ReplayPieceContext (V : Type u) where
  | partial_ (forKeys : List (KeyComparison V)) (requestingShard requestingReplica : Nat)
      (unishard : Bool)
  | regular (last : Bool)
deriving DecidableEq, Repr

inductive Packet (V : Type u) where
  | message (link : Link) (data : List (Record V))
  | replayPiece (link : Link) (tag : Tag) (data : List (Record V))
      (context : ReplayPieceContext V)
  | evictKeys (link : Link) (tag : Tag) (keys : List (KeyComparison V))
deriving DecidableEq, Repr

structure ReplicaAddress where
  domainIndex : Nat
  shard : Nat
  replica : Nat
deriving DecidableEq, Repr

/-- `SenderReplication`: from each replica to the replica of the same index, or
from one replica to all `numReplicas` of them. -/
inductive SenderReplication where
  | same
  | fanout (numReplicas : Nat)
deriving DecidableEq, Repr

namespace Packet

def replayPieceContext : Packet V → Option (ReplayPieceContext V)
  | .replayPiece _ _ _ context => some context
  | .message _ _ => none
  | .evictKeys _ _ _ => none

/-- The records of the packet, if it is of a kind that has any. -/
def data? : Packet V → Option (List (Record V))
  | .message _ data => some data
  | .replayPiece _ _ data _ => some data
  | .evictKeys _ _ _ => none

def withData (packet : Packet V) (data : List (Record V)) : Packet V :=
  match packet with
  | .message link _ => .message link data
  | .replayPiece link tag _ context => .replayPiece link tag data context
  | .evictKeys link tag keys => .evictKeys link tag keys

/-- The packet on another link. -/
def withLink (packet : Packet V) (link : Link) : Packet V :=
  match packet with
  | .message _ data => .message link data
  | .replayPiece _ tag data context => .replayPiece link tag data context
  | .evictKeys _ tag keys => .evictKeys link tag keys

@[simp] theorem withData_withData (packet : Packet V) (first second : List (Record V)) :
    (packet.withData first).withData second = packet.withData second := by
  cases packet <;> rfl

@[simp] theorem replayPieceContext_withData (packet : Packet V) (data : List (Record V)) :
    (packet.withData data).replayPieceContext = packet.replayPieceContext := by
  cases packet <;> rfl

@[simp] theorem replayPieceContext_withLink (packet : Packet V) (link : Link) :
    (packet.withLink link).replayPieceContext = packet.replayPieceContext := by
  cases packet <;> rfl

theorem data?_withData {packet : Packet V} {data : List (Record V)}
    (carries : packet.data? = some data) (other : List (Record V)) :
    (packet.withData other).data? = some other := by
  cases packet with
  | message link data => rfl
  | replayPiece link tag data ctx => rfl
  | evictKeys link tag keys => exact absurd carries (by simp [data?])

end Packet

end ReadySet.Dataflow
