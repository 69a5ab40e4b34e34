import ReadySet.Dataflow.Payload

/-!
Owns the sharder (`node/special/sharder.rs`): how it splits the records of a
packet over the shards of its child, which shards and replicas it sends replay
pieces and evictions to, and what it keeps between calls.

The values of this module are the values as they are written: `shardBy` may
tell apart two values that `DfValue::eq` identifies, so equality of values is a
parameter (`same`) wherever it matters. The hash functions of `shard_by` are a
parameter too.
-/

namespace ReadySet.Dataflow

open Data Library List Function

universe u

variable {V : Type u} {packet : Packet V} {shards : Nat}

/-! ## The shard of a value -/

/-- `shard_by`: the first shard for NULL, the value's hash modulo the number of
shards otherwise. For an integer the hash is the integer cast to `usize`, for a
text the hash of its characters, and for `Max` it is zero. -/
def shardBy (hash : DfValue V → Nat) (value : DfValue V) (shards : Nat) : Nat :=
  match value with
  | .none => 0
  | .value datum => hash (.value datum) % shards

theorem shardBy_lt (hash : DfValue V → Nat) (value : DfValue V)
    (pos : 0 < shards) : shardBy hash value shards < shards := by
  cases value with
  | none => exact pos
  | value datum => exact Nat.mod_lt _ pos

/-- `KeyComparison::shard_keys`. A key is never empty in the source. -/
def KeyComparison.shardKeys (hash : DfValue V → Nat) (key : KeyComparison V) (shards : Nat) :
    List Nat :=
  match key with
  | .equal point => [shardBy hash (point.headD .none) shards]
  | .range _ _ => List.range shards

theorem KeyComparison.lt_of_mem_shardKeys {hash : DfValue V → Nat} {key : KeyComparison V}
    {shard : Nat} (pos : 0 < shards) (mem : shard ∈ shardKeys hash key shards) :
    shard < shards := by
  cases key with
  | equal point =>
    obtain rfl := mem_singleton.mp mem
    exact shardBy_lt hash _ pos
  | range lower upper => exact mem_range.mp mem

/-! ## Senders -/

/-- `SharderTx`: one shard of the child. -/
structure SharderTx where
  node : LocalNodeIndex
  domainIndex : Nat
  shard : Nat
  replication : SenderReplication
deriving DecidableEq, Repr

namespace SharderTx

def address (tx : SharderTx) (replica : Nat) : ReplicaAddress :=
  ⟨tx.domainIndex, tx.shard, replica⟩

/-- `SharderTx::send`: what is handed to the executor. -/
def send (tx : SharderTx) (packet : Packet V) (fromReplica : Nat) :
    ReadySetResult (List (ReplicaAddress × Packet V)) :=
  match tx.replication with
  | .same => .ok [(tx.address fromReplica, packet)]
  | .fanout numReplicas =>
    match packet.replayPieceContext with
    | some (.partial_ _ _ requestingReplica _) =>
      if requestingReplica < numReplicas then
        -- the source sends to `from_replica` here as well
        .ok [(tx.address fromReplica, packet)]
      else .error (.internal "Replica index for replay piece context out-of-bounds")
    | _ => .ok ((List.range numReplicas).map fun replica => (tx.address replica, packet))

end SharderTx

/-! ## The sharder -/

/-- `Sharder`. `sharded` is a `VecMap`: the packet under construction for each
shard. -/
structure Sharder (V : Type u) where
  txs : List SharderTx
  sharded : Nat → Option (Packet V)
  shardBy : Nat

/-- What a call did: the packets it sent, the sharder it left, and what it
returned. A call that fails keeps what it did before. -/
structure Outcome (V : Type u) where
  sent : List (ReplicaAddress × Packet V)
  sharder : Sharder V
  result : ReadySetResult Unit

/-- The shards a packet has to reach even without records for them. -/
inductive Destination where
  | all
  | one (shard : Nat)
  | any
deriving DecidableEq, Repr

namespace Sharder

def new (column : Nat) : Sharder V where
  txs := []
  sharded := fun _ => none
  shardBy := column

def addShardedChild (sharder : Sharder V) (dstDomain : Nat) (dstNode : LocalNodeIndex)
    (numShards : Nat) (replication : SenderReplication) : Sharder V :=
  { sharder with
    txs := sharder.txs ++ (List.range numShards).map fun shard =>
      ⟨dstNode, dstDomain, shard, replication⟩ }

def toShard (hash : DfValue V → Nat) (sharder : Sharder V) (record : Record V) : Nat :=
  Dataflow.shardBy hash (Row.at record.value sharder.shardBy) sharder.txs.length

/-- One record of `process`: it joins the packet of its shard. -/
def pushRecord (hash : DfValue V → Nat) (sharder : Sharder V) (empty : Packet V)
    (sharded : Nat → Option (Packet V)) (record : Record V) :
    ReadySetResult (Nat → Option (Packet V)) :=
  let shard := sharder.toShard hash record
  let held := (sharded shard).getD empty
  match held.data? with
  | some data => .ok (Function.update sharded shard (some (held.withData (data ++ [record]))))
  | none => .error (.panicked "internal error: entered unreachable code")

/-- Where `process` has to send a packet. -/
def destination (packet : Packet V) (isLastSharderForTag : Option Bool) :
    ReadySetResult Destination :=
  match packet.replayPieceContext with
  | some (.regular true) => .ok .all
  | some (.partial_ _ requestingShard _ _) =>
    if isLastSharderForTag = some true then .ok (.one requestingShard) else .ok .all
  | _ =>
    if isLastSharderForTag.isNone then .ok .any
    else .error (.internal "assertion failed: is_last_sharder_for_tag.is_none()")

/-- `entry(shard).or_insert_with(..)`. -/
def orInsert (empty : Packet V) (sharded : Nat → Option (Packet V)) (shard : Nat) :
    Nat → Option (Packet V) :=
  Function.update sharded shard (some ((sharded shard).getD empty))

/-- The packets once every shard that has to get one has one. -/
def ensure (empty : Packet V) (shards : Nat) (sharded : Nat → Option (Packet V)) :
    Destination → Nat → Option (Packet V)
  | .all => (List.range shards).foldl (orInsert empty) sharded
  | .one shard => fun other => if other = shard then orInsert empty sharded shard other else none
  | .any => sharded

/-- The loop over `self.txs`: each takes out the packet of its shard and sends
it, until one fails. -/
def deliver (relink : SharderTx → Packet V → Packet V) (replica : Nat) :
    List (SharderTx × Nat) → Sharder V → Outcome V
  | [], sharder => ⟨[], sharder, .ok ()⟩
  | (tx, shard) :: rest, sharder =>
    match sharder.sharded shard with
    | none => deliver relink replica rest sharder
    | some packet =>
      let removed := { sharder with sharded := Function.update sharder.sharded shard none }
      match tx.send (relink tx packet) replica with
      | .error problem => ⟨[], removed, .error problem⟩
      | .ok sent =>
        let later := deliver relink replica rest removed
        { later with sent := sent ++ later.sent }

def process (hash : DfValue V → Nat) (sharder : Sharder V) (packet : Packet V)
    (index : LocalNodeIndex) (isSharded : Bool) (isLastSharderForTag : Option Bool)
    (replica : Nat) : Outcome V :=
  match packet.data? with
  | none => ⟨[], sharder, .error (.panicked "internal error: entered unreachable code")⟩
  | some data =>
    let empty := packet.withData []
    match data.foldlM (sharder.pushRecord hash empty) sharder.sharded with
    | .error problem => ⟨[], sharder, .error problem⟩
    | .ok sharded =>
      match destination packet isLastSharderForTag with
      | .error problem => ⟨[], { sharder with sharded := sharded }, .error problem⟩
      | .ok dest =>
        let ready := { sharder with sharded := ensure empty sharder.txs.length sharded dest }
        if isSharded then
          ⟨[], ready, .error (.unsupported "we don't know how to shard a shard")⟩
        else
          deliver (fun tx packet => packet.withLink ⟨index, tx.node⟩) replica
            sharder.txs.zipIdx ready

/-- One key of `process_eviction`: it joins the packet of each of its shards. -/
def pushKey (sharder : Sharder V) (src : LocalNodeIndex) (tag : Tag) (key : KeyComparison V)
    (sharded : Nat → Option (Packet V)) (shard : Nat) :
    ReadySetResult (Nat → Option (Packet V)) :=
  match sharder.txs[shard]? with
  | none => .error (.panicked "index out of bounds")
  | some tx =>
    match (sharded shard).getD (.evictKeys ⟨src, tx.node⟩ tag []) with
    | .evictKeys link tag keys =>
      .ok (Function.update sharded shard (some (.evictKeys link tag (keys ++ [key]))))
    | _ => .error (.panicked "received a non EvictKey packed in process_eviction")

/-- The packet is sent to every shard, until a send fails. -/
def sendAll (packet : SharderTx → Packet V) (replica : Nat) (sharder : Sharder V) :
    List SharderTx → Outcome V
  | [] => ⟨[], sharder, .ok ()⟩
  | tx :: rest =>
    match tx.send (packet tx) replica with
    | .error problem => ⟨[], sharder, .error problem⟩
    | .ok sent =>
      let later := sendAll packet replica sharder rest
      { later with sent := sent ++ later.sent }

def processEviction (hash : DfValue V → Nat) (sharder : Sharder V) (keyColumns : List Nat)
    (tag : Tag) (keys : List (KeyComparison V)) (src : LocalNodeIndex) (isSharded : Bool)
    (replica : Nat) : Outcome V :=
  if isSharded then ⟨[], sharder, .error (.internal "assertion failed: !is_sharded")⟩
  else if keyColumns = [sharder.shardBy] then
    let push sharded (key : KeyComparison V) :=
      (KeyComparison.shardKeys hash key sharder.txs.length).foldlM
        (sharder.pushKey src tag key) sharded
    match keys.foldlM push sharder.sharded with
    | .error problem => ⟨[], sharder, .error problem⟩
    | .ok sharded =>
      deliver (fun _ packet => packet) replica sharder.txs.zipIdx
        { sharder with sharded := sharded }
  else
    -- `!` is the bitwise complement of a `usize`
    let left := (~~~ BitVec.ofNat 64 keyColumns.length).toNat
    if left ≠ 0 then
      ⟨[], sharder, .error (.internal
        s!"assertion failed: !key_columns.len() == 0;\nleft = {left};\nright = 0")⟩
    else if keyColumns.contains sharder.shardBy then
      ⟨[], sharder, .error (.internal
        "assertion failed: !key_columns.contains(&self.shard_by)")⟩
    else
      sendAll (fun tx => .evictKeys ⟨src, tx.node⟩ tag keys) replica sharder sharder.txs

end Sharder

open Sharder (deliver)

/-! ## What a sharder is asked to do -/

/-- The child a sharder sends to, as `add_sharded_child` is given it. -/
structure ShardedChild where
  domain : Nat
  node : LocalNodeIndex
  numShards : Nat
  replication : SenderReplication
deriving DecidableEq, Repr

def ShardedChild.sharder (child : ShardedChild) (column : Nat) : Sharder V :=
  (Sharder.new column).addShardedChild child.domain child.node child.numShards child.replication

/-- A call of `process` or `process_eviction`. -/
inductive Request (V : Type u) where
  | process (packet : Packet V) (index : LocalNodeIndex) (isSharded : Bool)
      (isLastSharderForTag : Option Bool) (replica : Nat)
  | evict (keyColumns : List Nat) (tag : Tag) (keys : List (KeyComparison V))
      (src : LocalNodeIndex) (isSharded : Bool) (replica : Nat)
deriving DecidableEq, Repr

def Sharder.handle (hash : DfValue V → Nat) (sharder : Sharder V) : Request V → Outcome V
  | .process packet index isSharded isLastSharderForTag replica =>
    sharder.process hash packet index isSharded isLastSharderForTag replica
  | .evict keyColumns tag keys src isSharded replica =>
    sharder.processEviction hash keyColumns tag keys src isSharded replica

/-- A call as a step that may fail. -/
def Sharder.step (hash : DfValue V → Nat) (sharder : Sharder V) (request : Request V) :
    ReadySetResult (List (ReplicaAddress × Packet V) × Sharder V) :=
  match (sharder.handle hash request).result with
  | .ok () => .ok ((sharder.handle hash request).sent, (sharder.handle hash request).sharder)
  | .error problem => .error problem

/-! ## What it is for -/

/-- The packets sent to one replica of one shard. -/
def sentTo [DecidableEq V] (sent : List (ReplicaAddress × Packet V)) (address : ReplicaAddress) :
    List (Packet V) :=
  (sent.filter fun pair => pair.1 = address).map Prod.snd

def partOf (hash : DfValue V → Nat) (column shards : Nat) (data : List (Record V)) (shard : Nat) :
    List (Record V) :=
  data.filter fun record => shardBy hash (Row.at record.value column) shards = shard

/-- Whether a shard is to get a packet: the last piece of a full replay is for
every shard, a piece of a partial replay for the shard that asked if this is
the last sharder before it and for every shard otherwise, and any other packet
for the shards it has records for. -/
def isFor (packet : Packet V) (isLastSharderForTag : Option Bool) (part : List (Record V))
    (shard : Nat) : Bool :=
  match packet.replayPieceContext with
  | some (.regular true) => true
  | some (.partial_ _ requestingShard _ _) =>
    isLastSharderForTag ≠ some true || shard = requestingShard
  | _ => !part.isEmpty

/-- The replicas a packet is for: the one that asked, if it is a piece of a
partial replay; the sender's own or all of them otherwise. -/
def replicasFor (replication : SenderReplication) (packet : Packet V) (fromReplica : Nat) :
    List Nat :=
  match packet.replayPieceContext, replication with
  | some (.partial_ _ _ requestingReplica _), _ => [requestingReplica]
  | _, .same => [fromReplica]
  | _, .fanout numReplicas => List.range numReplicas

section

variable [DecidableEq V] (hash : DfValue V → Nat) (same : DfValue V → DfValue V → Prop)
  (child : ShardedChild) (column : Nat)

/-- Every record of a packet reached its own shard, and no other, once for each
replica it is for; the call succeeded and left nothing behind. -/
structure Routed (packet : Packet V) (data : List (Record V)) (index : LocalNodeIndex)
    (isLastSharderForTag : Option Bool) (replica : Nat) (outcome : Outcome V) : Prop where
  succeeded : outcome.result = .ok ()
  restored : outcome.sharder = child.sharder column
  delivered : ∀ address, sentTo outcome.sent address =
    if address.domainIndex = child.domain ∧ address.shard < child.numShards ∧
        address.replica ∈ replicasFor child.replication packet replica ∧
        isFor packet isLastSharderForTag (partOf hash column child.numShards data address.shard)
          address.shard then
      [(packet.withData (partOf hash column child.numShards data address.shard)).withLink
        ⟨index, child.node⟩]
    else []

/-- Whether a shard can hold rows of a key: every shard can if the key does not
tell the shard column. -/
def CanHold (keyColumns : List Nat) (key : KeyComparison V) (shard : Nat) : Prop :=
  match key with
  | .equal point => keyColumns = [column] →
      ∃ value, same value (point.headD .none) ∧ shardBy hash value child.numShards = shard
  | .range _ _ => True

/-- An eviction reached every shard that can hold one of its keys, at every
replica; the call succeeded and left nothing behind. -/
structure Evicted (keyColumns : List Nat) (tag : Tag) (keys : List (KeyComparison V))
    (src : LocalNodeIndex) (replica : Nat) (outcome : Outcome V) : Prop where
  succeeded : outcome.result = .ok ()
  restored : outcome.sharder = child.sharder column
  reached : ∀ key ∈ keys, ∀ shard < child.numShards,
    CanHold hash same child column keyColumns key shard →
      ∀ address : ReplicaAddress, address.domainIndex = child.domain → address.shard = shard →
        address.replica ∈ replicasFor child.replication
          (.evictKeys ⟨src, child.node⟩ tag keys : Packet V) replica →
          ∃ evicted, key ∈ evicted ∧
            Packet.evictKeys ⟨src, child.node⟩ tag evicted ∈ sentTo outcome.sent address

/-- What a request asks for. -/
def Right (request : Request V) (outcome : Outcome V) : Prop :=
  match request with
  | .process packet index _ isLastSharderForTag replica =>
    ∃ data, packet.data? = some data ∧
      Routed hash child column packet data index isLastSharderForTag replica outcome
  | .evict keyColumns tag keys src _ replica =>
    Evicted hash same child column keyColumns tag keys src replica outcome

end

/-! ## Sending -/

section

variable {relink : SharderTx → Packet V → Packet V} {replica : Nat}
  {pairs : List (SharderTx × Nat)} {sharder : Sharder V}

/-- All packets held for the children are sent, and none is held after. -/
theorem Sharder.deliver_ok {send : SharderTx × Nat → Packet V → List (ReplicaAddress × Packet V)}
    (nodup : (pairs.map Prod.snd).Nodup)
    (ok : ∀ pair ∈ pairs, ∀ packet, sharder.sharded pair.2 = some packet →
      pair.1.send (relink pair.1 packet) replica = .ok (send pair packet)) :
    deliver relink replica pairs sharder =
      ⟨pairs.flatMap fun pair => ((sharder.sharded pair.2).map (send pair)).getD [], { sharder with
          sharded := fun shard =>
            if shard ∈ pairs.map Prod.snd then none else sharder.sharded shard },
        .ok ()⟩ := by
  induction pairs generalizing sharder with
  | nil => simp [deliver]
  | cons pair rest ih =>
    obtain ⟨tx, shard⟩ := pair
    obtain ⟨fresh, distinctRest⟩ := nodup_cons.mp nodup
    cases held : sharder.sharded shard with
    | none =>
      have later := ih distinctRest fun pair mem =>
        ok pair (mem_cons_of_mem _ mem)
      simp only [deliver, held, later, flatMap_cons, Option.map_none,
        Option.getD_none, nil_append, Outcome.mk.injEq, mk.injEq, true_and,
        and_true]
      funext other
      by_cases here : other = shard
      · subst here
        rw [map_cons, if_pos mem_cons_self, held, ite_self]
      · simp only [map_cons, mem_cons, here, false_or]
    | some packet =>
      -- taking this packet out leaves those of the later shards
      have kept : ∀ pair ∈ rest,
          update sharder.sharded shard none pair.2 = sharder.sharded pair.2 := by
        intro pair mem
        refine update_of_ne (fun here => fresh ?_) _ _
        exact mem_map.mpr ⟨pair, mem, here⟩
      have later := @ih { sharder with sharded := update sharder.sharded shard none }
        distinctRest fun pair mem packet heldLater =>
          ok pair (mem_cons_of_mem _ mem) packet ((kept pair mem).symm.trans heldLater)
      have sends := ok (tx, shard) mem_cons_self packet held
      simp only [deliver, held, sends, later, flatMap_cons, Outcome.mk.injEq,
        mk.injEq, true_and, and_true]
      constructor
      · congr 1
        refine flatMap_congr fun pair mem => ?_
        rw [kept pair mem]
      · funext other
        by_cases here : other = shard
        · subst here
          rw [map_cons, if_pos mem_cons_self, update_self, ite_self]
        · simp only [map_cons, mem_cons, here, false_or, update_of_ne here]

theorem Sharder.deliver_sharded {shard : Nat} (other : shard ∉ pairs.map Prod.snd) :
    (deliver relink replica pairs sharder).sharder.sharded shard =
      sharder.sharded shard := by
  induction pairs generalizing sharder with
  | nil => rfl
  | cons pair rest ih =>
    obtain ⟨tx, first⟩ := pair
    have notFirst : shard ≠ first := fun same => other (by simp [same])
    have notRest : shard ∉ rest.map Prod.snd := fun mem =>
      other (mem_cons_of_mem _ mem)
    simp only [deliver]
    cases sharder.sharded first with
    | none => exact ih notRest
    | some packet =>
      simp only
      cases tx.send (relink tx packet) replica with
      | error problem => exact update_of_ne notFirst _ _
      | ok sent => exact (ih notRest).trans (update_of_ne notFirst _ _)

/-- A send that fails ends the delivery. -/
theorem Sharder.deliver_error (nodup : (pairs.map Prod.snd).Nodup) {pair : SharderTx × Nat}
    (mem : pair ∈ pairs) (held : sharder.sharded pair.2 = some packet) {problem : ReadySetError}
    (fails : pair.1.send (relink pair.1 packet) replica = .error problem) :
    (deliver relink replica pairs sharder).result ≠ .ok () := by
  induction pairs generalizing sharder with
  | nil => exact absurd mem not_mem_nil
  | cons first rest ih =>
    obtain ⟨tx, shard⟩ := first
    obtain ⟨fresh, distinctRest⟩ := nodup_cons.mp nodup
    rcases mem_cons.mp mem with rfl | later
    · simp [deliver, held, fails]
    · simp only [deliver]
      cases heldFirst : sharder.sharded shard with
      | none => exact ih distinctRest later held
      | some other =>
        simp only
        cases tx.send (relink tx other) replica with
        | error problem => simp
        | ok sent =>
          refine ih distinctRest later ?_
          rw [← held]
          refine update_of_ne (fun here => fresh ?_) _ _
          exact mem_map.mpr ⟨pair, later, here⟩

end

/-- The replicas a packet is really sent to. -/
def sendsTo (replication : SenderReplication) (packet : Packet V) (fromReplica : Nat) : List Nat :=
  match replication, packet.replayPieceContext with
  | .same, _ => [fromReplica]
  | .fanout _, some (.partial_ _ _ _ _) => [fromReplica]
  | .fanout numReplicas, _ => List.range numReplicas

/-- The check `send` makes of the replica that asked for a partial replay. -/
def inBounds (replication : SenderReplication) (packet : Packet V) : Bool :=
  match replication, packet.replayPieceContext with
  | .fanout numReplicas, some (.partial_ _ _ requestingReplica _) => requestingReplica < numReplicas
  | _, _ => true

theorem SharderTx.send_eq {tx : SharderTx} {fromReplica : Nat} :
    tx.send packet fromReplica =
      if inBounds tx.replication packet then
        .ok ((sendsTo tx.replication packet fromReplica).map
          fun replica => (tx.address replica, packet))
      else .error (.internal "Replica index for replay piece context out-of-bounds") := by
  obtain ⟨node, domain, shard, replication⟩ := tx
  cases replication with
  | same => rfl
  | fanout numReplicas =>
    unfold send inBounds sendsTo
    rcases packet.replayPieceContext with _ | ⟨forKeys, requestingShard, requestingReplica, _⟩ | last
    · rfl
    · simp
    · rfl

theorem inBounds_congr {first second : Packet V}
    (same : first.replayPieceContext = second.replayPieceContext)
    (replication : SenderReplication) :
    inBounds replication first = inBounds replication second := by
  unfold inBounds
  rw [same]

namespace ShardedChild

variable (child : ShardedChild) (column : Nat)

def tx (shard : Nat) : SharderTx := ⟨child.node, child.domain, shard, child.replication⟩

@[simp] theorem sharder_txs :
    (child.sharder column : Sharder V).txs = (range child.numShards).map child.tx := rfl

@[simp] theorem sharder_shardBy : (child.sharder column : Sharder V).shardBy = column := rfl

theorem zipIdx_txs : (child.sharder column : Sharder V).txs.zipIdx =
    (range child.numShards).map fun shard => (child.tx shard, shard) := by
  refine ext_getElem (by simp) fun idx _ _ => ?_
  simp

theorem distinct_zipIdx : (((child.sharder column : Sharder V).txs.zipIdx).map Prod.snd).Nodup := by
  rw [zipIdx_txs, map_map]
  exact nodup_range.map fun _ _ => id

/-- The sharder with packets under construction. -/
def holding (held : Nat → Option (Packet V)) : Sharder V :=
  { (child.sharder column : Sharder V) with sharded := held }

variable {child column} {held : Nat → Option (Packet V)} {relink : SharderTx → Packet V → Packet V}
  {replica : Nat}

theorem deliver_holding (within : ∀ shard < child.numShards, ∀ packet, held shard = some packet →
      inBounds child.replication (relink (child.tx shard) packet) = true) :
    deliver relink replica (child.sharder column : Sharder V).txs.zipIdx
        (child.holding column held) =
      ⟨(range child.numShards).flatMap fun shard =>
          (held shard).elim [] fun packet =>
            (sendsTo child.replication (relink (child.tx shard) packet) replica).map fun other =>
              ((child.tx shard).address other, relink (child.tx shard) packet),
        child.holding column fun shard => if shard < child.numShards then none else held shard,
        .ok ()⟩ := by
  have whole := @Sharder.deliver_ok V relink replica _ (child.holding column held)
    (fun pair packet => (sendsTo child.replication (relink pair.1 packet) replica).map fun other =>
      (pair.1.address other, relink pair.1 packet))
    (child.distinct_zipIdx column (V := V)) ?_
  · rw [whole, zipIdx_txs, flatMap_map]
    simp only [holding, Outcome.mk.injEq, Sharder.mk.injEq, true_and, and_true]
    constructor
    · refine flatMap_congr fun shard _ => ?_
      cases held shard <;> rfl
    · funext shard
      simp
  · intro pair mem packet heldHere
    rw [zipIdx_txs] at mem
    obtain ⟨shard, below, rfl⟩ := mem_map.mp mem
    refine (SharderTx.send_eq).trans (if_pos ?_)
    exact within shard (mem_range.mp below) packet heldHere

theorem deliver_holding_above {shard : Nat} (above : child.numShards ≤ shard) :
    (deliver relink replica (child.sharder column : Sharder V).txs.zipIdx
      (child.holding column held)).sharder.sharded shard = held shard := by
  refine @Sharder.deliver_sharded V relink replica _ (child.holding column held) shard ?_
  rw [zipIdx_txs, map_map]
  intro mem
  obtain ⟨below, inRange, rfl⟩ := mem_map.mp mem
  exact absurd (mem_range.mp inRange) (not_lt.mpr above)

theorem deliver_holding_error {shard : Nat} (below : shard < child.numShards)
    (heldHere : held shard = some packet)
    (outside : inBounds child.replication (relink (child.tx shard) packet) = false) :
    (deliver relink replica (child.sharder column : Sharder V).txs.zipIdx
      (child.holding column held)).result ≠ .ok () := by
  have mem : (child.tx shard, shard) ∈ (child.sharder column : Sharder V).txs.zipIdx := by
    rw [zipIdx_txs]
    exact mem_map_of_mem (mem_range.mpr below)
  exact Sharder.deliver_error (child.distinct_zipIdx column (V := V)) mem heldHere
    ((SharderTx.send_eq).trans (if_neg (ne_true_of_eq_false outside)))

end ShardedChild

/-! ## What one replica of one shard gets -/

theorem flatMap_range_single {α : Type u} {f : Nat → List α} (shard : Nat)
    (elsewhere : ∀ other, other ≠ shard → f other = []) :
    (range shards).flatMap f = if shard < shards then f shard else [] := by
  induction shards with
  | zero => simp
  | succ shards ih =>
    rw [range_succ, flatMap_append, ih, flatMap_cons, flatMap_nil, append_nil]
    rcases lt_trichotomy shard shards with below | rfl | above
    · rw [if_pos below, if_pos (by omega), elsewhere shards (by omega), append_nil]
    · rw [if_neg (by omega), if_pos (by omega), nil_append]
    · rw [if_neg (by omega), if_neg (by omega), elsewhere shards (by omega), append_nil]

variable [DecidableEq V]

theorem sentTo_map {tx : SharderTx} {replicas : List Nat} (nodup : replicas.Nodup)
    (packet : Packet V) (address : ReplicaAddress) :
    sentTo (replicas.map fun replica => (tx.address replica, packet)) address =
      if address.domainIndex = tx.domainIndex ∧ address.shard = tx.shard ∧
          address.replica ∈ replicas then [packet] else [] := by
  induction replicas with
  | nil => simp [sentTo]
  | cons replica replicas ih =>
    obtain ⟨fresh, distinctRest⟩ := nodup_cons.mp nodup
    have later := ih distinctRest
    unfold sentTo at later ⊢
    by_cases here : tx.address replica = address
    · subst here
      rw [if_neg (fun both => fresh both.2.2)] at later
      rw [map_cons, filter_cons_of_pos (by simp), map_cons, later, if_pos ⟨rfl, rfl, mem_cons_self⟩]
    · rw [map_cons, filter_cons_of_neg (by simpa using here), later]
      refine if_congr ?_ rfl rfl
      refine and_congr_right fun sameDomain => and_congr_right fun sameShard => ?_
      rw [mem_cons]
      refine ⟨.inr, fun mem => mem.resolve_left fun sameReplica => here ?_⟩
      obtain ⟨domain, shard, other⟩ := address
      obtain rfl : domain = tx.domainIndex := sameDomain
      obtain rfl : shard = tx.shard := sameShard
      obtain rfl : other = replica := sameReplica
      rfl

namespace ShardedChild

variable {child : ShardedChild} {column : Nat} {held : Nat → Option (Packet V)} {replica : Nat}

/-- What one address is sent. -/
theorem sentTo_deliver (relink : SharderTx → Packet V → Packet V) (address : ReplicaAddress) :
    sentTo ((range child.numShards).flatMap fun shard =>
        (held shard).elim [] fun packet =>
          (sendsTo child.replication (relink (child.tx shard) packet) replica).map fun other =>
            ((child.tx shard).address other, relink (child.tx shard) packet)) address =
      if address.domainIndex = child.domain ∧ address.shard < child.numShards then
        (held address.shard).elim [] fun packet =>
          if address.replica ∈ sendsTo child.replication
              (relink (child.tx address.shard) packet) replica then
            [relink (child.tx address.shard) packet]
          else []
      else [] := by
  have atShard : ∀ shard, sentTo ((held shard).elim [] fun packet =>
      (sendsTo child.replication (relink (child.tx shard) packet) replica).map fun other =>
        ((child.tx shard).address other, relink (child.tx shard) packet)) address =
      (held shard).elim [] fun packet =>
        if address.domainIndex = child.domain ∧ address.shard = shard ∧
            address.replica ∈ sendsTo child.replication (relink (child.tx shard) packet) replica then
          [relink (child.tx shard) packet]
        else [] := by
    intro shard
    cases held shard with
    | none => rfl
    | some packet =>
      refine sentTo_map ?_ _ _
      unfold sendsTo
      split
      · exact nodup_singleton _
      · exact nodup_singleton _
      · exact nodup_range
  have split : ∀ {f : Nat → List (ReplicaAddress × Packet V)} (shards : List Nat),
      sentTo (shards.flatMap f) address = shards.flatMap fun shard => sentTo (f shard) address := by
    intro f shards
    simp [sentTo, filter_flatMap, map_flatMap]
  rw [split]
  simp only [atShard]
  rw [flatMap_range_single address.shard]
  · by_cases sameDomain : address.domainIndex = child.domain
    · simp [sameDomain]
    · simp only [sameDomain]
      cases held address.shard <;> simp
  · intro shard elsewhere
    cases held shard with
    | none => rfl
    | some packet => exact if_neg fun all => elsewhere all.2.1.symm

/-- The loop over the shards, if all packets have the context of one that passes
the check. -/
theorem deliver_wanted {relink : SharderTx → Packet V → Packet V}
    {wanted : Nat → Bool} {packetOf : Nat → Packet V} (holds : ∀ shard < child.numShards,
      held shard = if wanted shard then some (packetOf shard) else none)
    (context : ∀ shard, (relink (child.tx shard) (packetOf shard)).replayPieceContext =
      packet.replayPieceContext) (within : inBounds child.replication packet = true) :
    ∃ sent, deliver relink replica (child.sharder column : Sharder V).txs.zipIdx
        (child.holding column held) =
      ⟨sent, child.holding column fun shard =>
        if shard < child.numShards then none else held shard, .ok ()⟩ ∧
      ∀ address, sentTo sent address =
        if address.domainIndex = child.domain ∧ address.shard < child.numShards ∧
            address.replica ∈ sendsTo child.replication packet replica ∧ wanted address.shard then
          [relink (child.tx address.shard) (packetOf address.shard)]
        else [] := by
  refine ⟨_, deliver_holding fun shard below other heldHere => ?_,
    fun address => (sentTo_deliver relink address).trans ?_⟩
  · rw [holds shard below] at heldHere
    split at heldHere
    · obtain rfl := Option.some.inj heldHere
      exact (inBounds_congr (context shard) _).trans within
    · contradiction
  · by_cases there : address.domainIndex = child.domain ∧ address.shard < child.numShards
    · rw [holds _ there.2]
      cases wanted address.shard with
      | false => simp
      | true => simp [there, sendsTo, context address.shard]
    · rw [if_neg there, if_neg fun all => there ⟨all.1, all.2.1⟩]

end ShardedChild

end ReadySet.Dataflow
