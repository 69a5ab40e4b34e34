import ReadySet.Node.Special.Sharder

/-!
Owns what a sharder does with whole requests: `routed_process_iff` for packets
of records, `evicted_iff` for evictions, and `run_right_iff` for every run of
requests to one sharder.

Between two requests nothing is under construction, so each request finds the
sharder as `add_sharded_child` left it. The statements are exact: each gives
the condition under which the request is carried out as it should be.
-/

namespace ReadySet.Dataflow

open Data Library Sharder KeyComparison List Function

universe u

variable {V : Type u} {shards shard : Nat} {isSharded : Bool}

/-! ## Packets of records -/

section

variable {hash : DfValue V → Nat} {child : ShardedChild} {col : Nat} {packet : Packet V}
  {data : List (Record V)} {isLast : Option Bool} {dest : Destination}

/-- The packets of `process` after the loop over the records. -/
def parts (hash : DfValue V → Nat) (column shards : Nat) (packet : Packet V)
    (data : List (Record V)) (shard : Nat) : Option (Packet V) :=
  if partOf hash column shards data shard = [] then none
  else some (packet.withData (partOf hash column shards data shard))

theorem getD_parts (shards shard : Nat) :
    (parts hash col shards packet data shard).getD (packet.withData []) =
      packet.withData (partOf hash col shards data shard) := by
  unfold parts
  split
  · next empty => rw [empty, Option.getD_none]
  · rw [Option.getD_some]

section

variable (pos : 0 < shards) (above : shards ≤ shard)

include pos above

theorem partOf_eq_nil : partOf hash col shards data shard = [] := by
  refine filter_eq_nil_iff.mpr fun record _ => ?_
  have below := shardBy_lt hash (Row.at record.value col) pos
  simp only [decide_eq_true_eq]
  omega

theorem parts_above : parts hash col shards packet data shard = none :=
  if_pos (partOf_eq_nil pos above)

end

theorem pushRecord_parts (carries : packet.data? = some data) {done : List (Record V)}
    {record : Record V} :
    (child.sharder col).pushRecord hash (packet.withData [])
        (parts hash col child.numShards packet done) record =
      .ok (parts hash col child.numShards packet (done ++ [record])) := by
  have shardOf : (child.sharder col).toShard hash record =
      shardBy hash (Row.at record.value col) child.numShards := by
    simp [toShard]
  simp only [pushRecord, getD_parts, Packet.data?_withData carries, shardOf]
  congr 1
  funext shard
  unfold parts partOf
  by_cases here : shard = shardBy hash (Row.at record.value col) child.numShards
  · subst here
    simp
  · rw [update_of_ne here]
    simp [Ne.symm here]

theorem foldlM_pushRecord (carries : packet.data? = some data) :
    data.foldlM ((child.sharder col).pushRecord hash (packet.withData [])) (fun _ => none) =
      .ok (parts hash col child.numShards packet data) := by
  obtain ⟨final, folded, same⟩ := foldlM_invariant
    ((child.sharder col).pushRecord hash (packet.withData []))
    (fun done sharded => sharded = parts hash col child.numShards packet done) data
    (by
      rintro done record _ _ _ rfl
      exact ⟨_, pushRecord_parts carries, rfl⟩) rfl
  rw [← same]
  exact folded

theorem foldl_orInsert (empty : Packet V) (sharded : Nat → Option (Packet V)) (shards shard : Nat) :
    (range shards).foldl (orInsert empty) sharded shard =
      if shard < shards then some ((sharded shard).getD empty) else sharded shard := by
  induction shards with
  | zero => rfl
  | succ shards ih =>
    rw [range_succ, foldl_concat]
    unfold orInsert at ih ⊢
    by_cases here : shard = shards
    · subst here
      rw [update_self, ih, if_neg (by omega), if_pos (by omega)]
    · rw [update_of_ne here, ih]
      exact if_congr (by omega) rfl rfl

/-- The packets of `process` before they are sent. -/
def ready (hash : DfValue V → Nat) (column shards : Nat) (packet : Packet V)
    (data : List (Record V)) (dest : Destination) : Nat → Option (Packet V) :=
  Sharder.ensure (packet.withData []) shards (parts hash column shards packet data) dest

/-- What the loop over the shards makes of them. -/
def delivered (hash : DfValue V → Nat) (child : ShardedChild) (column : Nat) (packet : Packet V)
    (data : List (Record V)) (dest : Destination) (index : LocalNodeIndex) (replica : Nat) :
    Outcome V :=
  Sharder.deliver (fun tx packet => packet.withLink ⟨index, tx.node⟩) replica
    (child.sharder column : Sharder V).txs.zipIdx
    (child.holding column (ready hash column child.numShards packet data dest))

section

variable (carries : packet.data? = some data) (index : LocalNodeIndex) (replica : Nat)

include carries

theorem process_eq (isSharded : Bool) :
    (child.sharder col).process hash packet index isSharded isLast replica =
      match destination packet isLast with
      | .error problem =>
        ⟨[], child.holding col (parts hash col child.numShards packet data), .error problem⟩
      | .ok dest =>
        if isSharded then
          ⟨[], child.holding col (ready hash col child.numShards packet data dest),
            .error (.unsupported "we don't know how to shard a shard")⟩
        else
          delivered hash child col packet data dest index replica := by
  unfold process
  simp only [carries]
  rw [show (child.sharder col : Sharder V).sharded = fun _ => none from rfl,
    foldlM_pushRecord carries]
  simp only [ShardedChild.sharder_txs, length_map, length_range]
  rfl

theorem process_ok (directed : destination packet isLast = .ok dest) :
    (child.sharder col).process hash packet index false isLast replica =
      delivered hash child col packet data dest index replica := by
  rw [process_eq carries, directed]
  rfl

end

/-- Whether a destination wants a packet for a shard. -/
def Destination.wants (part : List (Record V)) (shard : Nat) : Destination → Bool
  | .all => true
  | .one requested => shard = requested
  | .any => !part.isEmpty

theorem isFor_eq (directed : destination packet isLast = .ok dest)
    (part : List (Record V)) (shard : Nat) :
    isFor packet isLast part shard = dest.wants part shard := by
  unfold destination at directed
  unfold isFor
  generalize packet.replayPieceContext = ctx at directed ⊢
  rcases ctx with _ | ⟨forKeys, requestingShard, requestingReplica, unishard⟩ | ⟨_ | _⟩
  · cases isLast with
    | none =>
      obtain rfl := Except.ok.inj directed
      rfl
    | some last => cases directed
  · by_cases last : isLast = some true
    · simp only [if_pos last] at directed
      obtain rfl := Except.ok.inj directed
      simp [last, Destination.wants]
    · simp only [if_neg last] at directed
      obtain rfl := Except.ok.inj directed
      simp [last, Destination.wants]
  · cases isLast with
    | none =>
      obtain rfl := Except.ok.inj directed
      rfl
    | some last => cases directed
  · obtain rfl := Except.ok.inj directed
    rfl

theorem ready_below (dest : Destination) (below : shard < shards) :
    ready hash col shards packet data dest shard =
      if dest.wants (partOf hash col shards data shard) shard then
        some (packet.withData (partOf hash col shards data shard))
      else none := by
  cases dest with
  | all =>
    have inserted := foldl_orInsert (packet.withData []) (parts hash col shards packet data)
      shards shard
    rw [if_pos below, getD_parts] at inserted
    exact inserted
  | one requested =>
    simp only [ready, ensure, orInsert]
    by_cases here : shard = requested
    · subst here
      rw [if_pos rfl, update_self, getD_parts]
      exact (if_pos (decide_eq_true rfl)).symm
    · rw [if_neg here]
      exact (if_neg (by simpa [Destination.wants] using here)).symm
  | any =>
    simp only [ready, ensure, parts]
    cases partOf hash col shards data shard <;> rfl

theorem ready_above (pos : 0 < shards) (dest : Destination) :
    (∀ shard, shards ≤ shard → ready hash col shards packet data dest shard = none) ↔
      ∀ requested, dest = .one requested → requested < shards := by
  cases dest with
  | all =>
    refine iff_of_true (fun shard above => ?_) (by simp)
    have inserted := foldl_orInsert (packet.withData []) (parts hash col shards packet data)
      shards shard
    rw [if_neg (by omega), parts_above pos above] at inserted
    exact inserted
  | one requested =>
    simp only [ready, ensure, orInsert]
    constructor
    · rintro empty _ ⟨⟩
      by_contra above
      have held := empty requested (by omega)
      simp at held
    · intro below shard above
      have belowHere := below requested rfl
      rw [if_neg (by omega)]
  | any => exact iff_of_true (fun shard above => parts_above pos above) (by simp)

end

section

variable [DecidableEq V] {hash : DfValue V → Nat} {child : ShardedChild} {col : Nat} {packet : Packet V}
  {data : List (Record V)} {isLast : Option Bool} {dest : Destination}
  {index : LocalNodeIndex} {replica : Nat} {requestingShard requestingReplica : Nat}
  {forKeys : List (KeyComparison V)} {unishard : Bool}

omit [DecidableEq V] in
theorem requested_lt (pos : 0 < child.numShards)
    (restored : (delivered hash child col packet data dest index replica).sharder =
      child.sharder col) : ∀ requested, dest = .one requested → requested < child.numShards := by
  have empty : ∀ shard, child.numShards ≤ shard →
      ready hash col child.numShards packet data dest shard = none := by
    intro shard above
    have same := congrFun (congrArg sharded restored) shard
    rwa [delivered, ShardedChild.deliver_holding_above above] at same
  exact (ready_above pos dest).mp empty

/-- What is delivered is routed right just if the shard exists and the replicas match. -/
theorem routed_deliver_iff (pos : 0 < child.numShards)
    (directed : destination packet isLast = .ok dest)
    (within : inBounds child.replication packet = true) :
    Routed hash child col packet data index isLast replica
        (delivered hash child col packet data dest index replica) ↔
      (∀ requested, dest = .one requested → requested < child.numShards) ∧
        ∀ shard < child.numShards,
          isFor packet isLast (partOf hash col child.numShards data shard) shard →
            ∀ other, other ∈ sendsTo child.replication packet replica ↔
              other ∈ replicasFor child.replication packet replica := by
  -- What the loop over the shards does to a packet of records that passes the check.
  obtain ⟨sent, ran, atAddress⟩ := @ShardedChild.deliver_wanted V packet _ child col
    (ready hash col child.numShards packet data dest) replica
    (fun tx packet => packet.withLink ⟨index, tx.node⟩) _ _
    (fun shard below => ready_below dest below) (by simp) within
  simp only [← isFor_eq directed] at atAddress
  constructor
  · intro routed
    refine ⟨requested_lt pos routed.restored, ?_⟩
    obtain ⟨-, -, routed⟩ := routed
    rw [delivered, ran] at routed
    intro shard below wanted other
    have same := (atAddress ⟨child.domain, shard, other⟩).symm.trans
      (routed ⟨child.domain, shard, other⟩)
    simp only [below, wanted, true_and, and_true] at same
    by_cases sends : other ∈ sendsTo child.replication packet replica
    · rw [if_pos sends] at same
      refine iff_of_true sends ?_
      by_contra absent
      rw [if_neg absent] at same
      contradiction
    · rw [if_neg sends] at same
      refine iff_of_false sends fun mem => ?_
      rw [if_pos mem] at same
      contradiction
  · rintro ⟨existing, agree⟩
    rw [delivered, ran]
    refine ⟨rfl, ?_, fun address => (atAddress address).trans (if_congr ?_ rfl rfl)⟩
    · have cleared : (fun shard => if shard < child.numShards then none
          else ready hash col child.numShards packet data dest shard) = fun _ => none := by
        funext shard
        split
        · rfl
        · next above => exact (ready_above pos dest).mpr existing shard (not_lt.mp above)
      rw [cleared]
      rfl
    · refine and_congr_right fun _ => and_congr_right fun below => ?_
      refine and_congr_left fun wanted => ?_
      exact agree address.shard below wanted address.replica

def Packet.Whole (packet : Packet V) : Prop :=
  ∀ forKeys requestingShard requestingReplica unishard,
    packet.replayPieceContext ≠
      some (.partial_ forKeys requestingShard requestingReplica unishard)

omit [DecidableEq V] in
theorem sendsTo_eq_replicasFor (whole : packet.Whole) :
    sendsTo child.replication packet replica = replicasFor child.replication packet replica := by
  unfold Packet.Whole at whole
  unfold sendsTo replicasFor
  generalize packet.replayPieceContext = ctx at whole
  rcases ctx with _ | ⟨forKeys, requestingShard, requestingReplica, unishard⟩ | last
  · cases child.replication <;> rfl
  · exact absurd rfl (whole forKeys requestingShard requestingReplica unishard)
  · cases child.replication <;> rfl

omit [DecidableEq V] in
theorem inBounds_of_whole (whole : packet.Whole) : inBounds child.replication packet = true := by
  unfold inBounds
  split
  · next ctx => exact absurd ctx (whole _ _ _ _)
  · rfl

/-- What has to hold for a packet of records to be routed as it should: the
sender is not itself sharded, the flag for the last sharder comes with partial
replays only, and such a replay was asked for by an existing shard and by the
replica that has the index of the sender. -/
def RoutesWell (child : ShardedChild) (packet : Packet V) (isSharded : Bool)
    (isLastSharderForTag : Option Bool) (replica : Nat) : Prop :=
  isSharded = false ∧
    match packet.replayPieceContext with
    | some (.regular true) => True
    | some (.partial_ _ requestingShard requestingReplica _) =>
      (isLastSharderForTag = some true → requestingShard < child.numShards) ∧
        (∀ numReplicas, child.replication = .fanout numReplicas →
          requestingReplica < numReplicas) ∧
        requestingReplica = replica
    | _ => isLastSharderForTag = none

/-- A packet that is no piece of a partial replay and is not refused is routed
as it should be. -/
theorem routed_of_whole (pos : 0 < child.numShards)
    (directed : destination packet isLast = .ok dest)
    (unrequested : ∀ requested, dest ≠ .one requested) (whole : packet.Whole) :
    Routed hash child col packet data index isLast replica
      (delivered hash child col packet data dest index replica) := by
  refine (routed_deliver_iff pos directed (inBounds_of_whole whole)).mpr ⟨?_, ?_⟩
  · exact fun requested same => absurd same (unrequested requested)
  · intro shard _ _ other
    rw [sendsTo_eq_replicasFor whole]

section

variable (pos : 0 < child.numShards)

include pos

/-- A piece of a partial replay that is not refused for its sender is routed as
it should be exactly if it was asked for by the replica that sends it. -/
theorem routed_partial_iff (directed : destination packet isLast = .ok dest)
    (ctx : packet.replayPieceContext =
      some (.partial_ forKeys requestingShard requestingReplica unishard))
    (destinationOf : dest = if isLast = some true then .one requestingShard else .all) :
    Routed hash child col packet data index isLast replica
        (delivered hash child col packet data dest index replica) ↔
      (isLast = some true → requestingShard < child.numShards) ∧
        (∀ numReplicas, child.replication = .fanout numReplicas → requestingReplica < numReplicas) ∧
        requestingReplica = replica := by
  have requests : (∀ requested, dest = .one requested → requested < child.numShards) ↔
      (isLast = some true → requestingShard < child.numShards) := by
    rw [destinationOf]
    by_cases last : isLast = some true <;> simp [last]
  have sends : sendsTo child.replication packet replica = [replica] := by
    unfold sendsTo
    rw [ctx]
    cases child.replication <;> rfl
  have wanted : replicasFor child.replication packet replica = [requestingReplica] := by
    unfold replicasFor
    rw [ctx]
  -- some shard gets the piece, unless the shard that asked does not exist
  have someShard : (isLast = some true → requestingShard < child.numShards) →
      ∃ shard < child.numShards,
        isFor packet isLast (partOf hash col child.numShards data shard) shard := by
    intro exists_
    by_cases last : isLast = some true
    · exact ⟨requestingShard, exists_ last, by simp [isFor, ctx]⟩
    · exact ⟨0, pos, by simp [isFor, ctx, last]⟩
  have bounded : inBounds child.replication packet = true ↔
      ∀ numReplicas, child.replication = .fanout numReplicas → requestingReplica < numReplicas := by
    unfold inBounds
    rw [ctx]
    cases child.replication <;> simp
  rw [← bounded, ← requests]
  by_cases within : inBounds child.replication packet = true
  · rw [routed_deliver_iff pos directed within]
    refine and_congr_right fun existing => ?_
    obtain ⟨shard, below, isForIt⟩ := someShard (requests.mp existing)
    simp only [sends, wanted, mem_singleton]
    constructor
    · intro agree
      exact ⟨within, ((agree shard below isForIt replica).mp rfl).symm⟩
    · rintro ⟨-, rfl⟩ shard below isForIt other
      exact Iff.rfl
  · refine iff_of_false (fun routed => ?_) (fun all => within all.2.1)
    by_cases existing : ∀ requested, dest = .one requested → requested < child.numShards
    · obtain ⟨shard, below, isForIt⟩ := someShard (requests.mp existing)
      rw [isFor_eq directed] at isForIt
      have held : ready hash col child.numShards packet data dest shard = _ :=
        ready_below dest below
      rw [if_pos isForIt] at held
      refine ShardedChild.deliver_holding_error below held ?_ routed.succeeded
      refine Eq.trans (b := inBounds child.replication packet) (inBounds_congr (by simp) _) ?_
      simpa using within
    · exact existing (requested_lt pos routed.restored)

/-- A packet for the shards it has records for is refused exactly if it comes
with a flag for the last sharder. -/
theorem routed_unflagged_iff (carries : packet.data? = some data)
    (directs : destination packet isLast = if isLast.isNone then .ok .any
      else .error (.internal "assertion failed: is_last_sharder_for_tag.is_none()"))
    (whole : packet.Whole) :
    Routed hash child col packet data index isLast replica
        ((child.sharder col).process hash packet index false isLast replica) ↔
      isLast = none := by
  cases isLast with
  | none =>
    have directed : destination packet none = .ok .any := directs
    rw [process_ok carries index replica directed]
    exact iff_of_true (routed_of_whole pos directed (by simp) whole) rfl
  | some last =>
    refine iff_of_false (fun routed => ?_) (by simp)
    have succeeded := routed.succeeded
    simp [process_eq carries, directs] at succeeded

/-- Packets of records: routed as they should be exactly if `RoutesWell`. -/
theorem routed_process_iff (carries : packet.data? = some data) :
    Routed hash child col packet data index isLast replica
        ((child.sharder col).process hash packet index isSharded isLast replica) ↔
      RoutesWell child packet isSharded isLast replica := by
  cases isSharded with
  | true =>
    refine iff_of_false (fun routed => ?_) (fun well => Bool.noConfusion well.1)
    have succeeded := routed.succeeded
    rw [process_eq carries] at succeeded
    cases directs : destination packet isLast <;> simp [directs] at succeeded
  | false =>
    unfold RoutesWell
    rw [and_iff_right rfl]
    rcases ctx : packet.replayPieceContext with
      _ | ⟨forKeys, requestingShard, requestingReplica, unishard⟩ | ⟨_ | _⟩
    · exact routed_unflagged_iff pos carries (by simp [destination, ctx])
        (by simp [Packet.Whole, ctx])
    · have directed : destination packet isLast =
          .ok (if isLast = some true then .one requestingShard else .all) := by
        simp only [destination, ctx]
        split <;> rfl
      rw [process_ok carries index replica directed]
      exact routed_partial_iff pos directed ctx rfl
    · exact routed_unflagged_iff pos carries (by simp [destination, ctx])
        (by simp [Packet.Whole, ctx])
    · have directed : destination packet isLast = .ok .all := by
        simp [destination, ctx]
      rw [process_ok carries index replica directed]
      exact iff_of_true (routed_of_whole pos directed (by simp) (by simp [Packet.Whole, ctx]))
        trivial

end

end

/-! ## Evictions -/

section

variable {hash : DfValue V → Nat} {child : ShardedChild} {col : Nat} {src : LocalNodeIndex}
  {tag : Tag} {keys : List (KeyComparison V)} {key : KeyComparison V} {replica : Nat}

/-- The packets of `process_eviction` for the keys of each shard. -/
def evictions (src dst : LocalNodeIndex) (tag : Tag) (kept : Nat → List (KeyComparison V))
    (shard : Nat) : Option (Packet V) :=
  if kept shard = [] then none else some (.evictKeys ⟨src, dst⟩ tag (kept shard))

section

variable (kept : Nat → List (KeyComparison V)) (key : KeyComparison V)

theorem pushKey_evictions (below : shard < child.numShards) :
    (child.sharder col).pushKey src tag key (evictions src child.node tag kept) shard =
      .ok (evictions src child.node tag (update kept shard (kept shard ++ [key]))) := by
  have found : (child.sharder col : Sharder V).txs[shard]? = some (child.tx shard) := by
    simp [below]
  have held : (evictions src child.node tag kept shard).getD
      (.evictKeys ⟨src, (child.tx shard).node⟩ tag []) =
        .evictKeys ⟨src, child.node⟩ tag (kept shard) := by
    unfold evictions
    split
    · next empty => rw [empty]; rfl
    · rfl
  simp only [pushKey, found, held]
  congr 1
  funext other
  by_cases here : other = shard
  · subst here
    simp [evictions]
  · simp [evictions, update_of_ne here]

theorem foldlM_pushKey {shards : List Nat} (nodup : shards.Nodup)
    (below : ∀ shard ∈ shards, shard < child.numShards) :
    shards.foldlM ((child.sharder col).pushKey src tag key) (evictions src child.node tag kept) =
      .ok (evictions src child.node tag fun shard =>
        if shard ∈ shards then kept shard ++ [key] else kept shard) := by
  induction shards generalizing kept with
  | nil => rfl
  | cons first rest ih =>
    obtain ⟨fresh, distinctRest⟩ := nodup_cons.mp nodup
    rw [foldlM_cons, pushKey_evictions kept key (below first mem_cons_self)]
    refine (ih _ distinctRest fun shard mem =>
      below shard (mem_cons_of_mem _ mem)).trans ?_
    congr 2
    funext shard
    by_cases here : shard = first
    · subst here
      rw [if_neg fresh, update_self, if_pos mem_cons_self]
    · simp [here]

end

/-- The keys of an eviction that are sent to a shard. -/
def keysOf (hash : DfValue V → Nat) (shards : Nat) (keys : List (KeyComparison V)) (shard : Nat) :
    List (KeyComparison V) :=
  keys.filter fun key => shard ∈ KeyComparison.shardKeys hash key shards

section

variable (pos : 0 < child.numShards)

include pos

theorem foldlM_keys : keys.foldlM (fun sharded key =>
        (shardKeys hash key child.numShards).foldlM
          ((child.sharder col).pushKey src tag key) sharded) (fun _ => none) =
      .ok (evictions src child.node tag (keysOf hash child.numShards keys)) := by
  obtain ⟨final, folded, same⟩ := foldlM_invariant
    (fun sharded key => (shardKeys hash key child.numShards).foldlM
      ((child.sharder col).pushKey src tag key) sharded)
    (fun done sharded =>
      sharded = evictions src child.node tag (keysOf hash child.numShards done)) keys
    (by
      rintro done key _ _ _ rfl
      have nodup : (shardKeys hash key child.numShards).Nodup := by
        cases key with
        | equal point => exact nodup_singleton _
        | range lower upper => exact nodup_range
      refine ⟨_, foldlM_pushKey _ key nodup fun shard mem => lt_of_mem_shardKeys pos mem, ?_⟩
      refine congrArg _ (funext fun shard => ?_)
      unfold keysOf
      by_cases here : shard ∈ shardKeys hash key child.numShards <;> simp [here]) rfl
  rw [← same]
  exact folded

theorem processEviction_eq :
    (child.sharder col).processEviction hash [col] tag keys src false replica =
      deliver (fun _ packet => packet) replica (child.sharder col : Sharder V).txs.zipIdx
        (child.holding col (evictions src child.node tag (keysOf hash child.numShards keys))) := by
  have shards : (child.sharder col : Sharder V).txs.length = child.numShards := by simp
  unfold processEviction
  simp only [shards]
  rw [show (child.sharder col : Sharder V).sharded = fun _ => none from rfl, foldlM_keys pos]
  exact if_pos rfl

end

/-- Evictions with any other columns are refused: the complement of a length
is never zero. -/
theorem processEviction_refused {keyColumns : List Nat} (other : keyColumns ≠ [col])
    (short : keyColumns.length < 2 ^ 63) :
    ((child.sharder col).processEviction hash keyColumns tag keys src false
      replica).result ≠ .ok () := by
  have complement : (~~~ BitVec.ofNat 64 keyColumns.length).toNat ≠ 0 := by
    rw [BitVec.toNat_not, BitVec.toNat_ofNat]
    omega
  unfold processEviction
  simp only [ShardedChild.sharder_shardBy, other, complement, ne_eq]
  simp

end

section

variable [DecidableEq V] {hash : DfValue V → Nat} {same : DfValue V → DfValue V → Prop}
  {child : ShardedChild} {col : Nat} {src : LocalNodeIndex} {tag : Tag} {replica : Nat}
  {keys : List (KeyComparison V)}

/-- What has to hold for an eviction to reach every shard that can hold one of
its keys: the sender is not itself sharded, the key is the shard column alone,
and values that count as equal to a key have its shard. -/
def EvictsWell (hash : DfValue V → Nat) (same : DfValue V → DfValue V → Prop)
    (child : ShardedChild) (column : Nat) (keyColumns : List Nat) (keys : List (KeyComparison V))
    (isSharded : Bool) : Prop :=
  isSharded = false ∧ keyColumns = [column] ∧
    (child.replication ≠ .fanout 0 → ∀ point, .equal point ∈ keys →
      ∀ value, same value (point.headD .none) →
        shardBy hash value child.numShards =
          shardBy hash (point.headD .none) child.numShards)

/-- Each shard is sent the evicted keys that are its own. -/
theorem processEviction_sent (pos : 0 < child.numShards) :
    ∃ sent, (child.sharder col).processEviction hash [col] tag keys src false replica =
        ⟨sent, child.sharder col, .ok ()⟩ ∧
      ∀ address, sentTo sent address =
        if address.domainIndex = child.domain ∧ address.shard < child.numShards ∧
            address.replica ∈ replicasFor child.replication
              (.evictKeys ⟨src, child.node⟩ tag keys : Packet V) replica ∧
            keysOf hash child.numShards keys address.shard ≠ [] then
          [.evictKeys ⟨src, child.node⟩ tag (keysOf hash child.numShards keys address.shard)]
        else [] := by
  have cleared : (fun shard => if shard < child.numShards then none
      else evictions src child.node tag (keysOf hash child.numShards keys) shard) =
        fun _ => none := by
    funext shard
    split
    · rfl
    · next above =>
        refine if_pos (filter_eq_nil_iff.mpr fun key _ listed => ?_)
        exact above (lt_of_mem_shardKeys pos (of_decide_eq_true listed))
  have whole : (Packet.evictKeys ⟨src, child.node⟩ tag keys : Packet V).Whole := by
    simp [Packet.Whole, Packet.replayPieceContext]
  obtain ⟨sent, delivered, atAddress⟩ := @ShardedChild.deliver_wanted V
    (.evictKeys ⟨src, child.node⟩ tag keys) _ child col
    (evictions src child.node tag (keysOf hash child.numShards keys)) replica (fun _ packet => packet)
    (fun shard => decide (keysOf hash child.numShards keys shard ≠ []))
    (fun shard => .evictKeys ⟨src, child.node⟩ tag (keysOf hash child.numShards keys shard))
    (fun shard _ => by simp [evictions]) (fun _ => rfl) (inBounds_of_whole whole)
  rw [cleared] at delivered
  refine ⟨sent, (processEviction_eq pos).trans delivered, fun address => ?_⟩
  rw [← sendsTo_eq_replicasFor whole]
  simpa using atAddress address

omit [DecidableEq V] in
theorem exists_mem_replicasFor (replicated : child.replication ≠ .fanout 0) :
    ∃ other, other ∈ replicasFor child.replication
      (.evictKeys ⟨src, child.node⟩ tag keys : Packet V) replica := by
  cases replication : child.replication with
  | same => exact ⟨replica, mem_singleton_self _⟩
  | fanout numReplicas =>
    refine ⟨0, mem_range.mpr (Nat.pos_of_ne_zero ?_)⟩
    rintro rfl
    exact replicated replication

/-- Evictions: they reach every shard that can hold one of their keys exactly
if `EvictsWell`. -/
theorem evicted_iff (pos : 0 < child.numShards) {keyColumns : List Nat}
    (short : keyColumns.length < 2 ^ 63) :
    Evicted hash same child col keyColumns tag keys src replica
        ((child.sharder col).processEviction hash keyColumns tag keys src isSharded replica) ↔
      EvictsWell hash same child col keyColumns keys isSharded := by
  cases isSharded with
  | true =>
    exact iff_of_false (fun evicted => nomatch evicted.succeeded)
      (fun well => Bool.noConfusion well.1)
  | false =>
    by_cases keyed : keyColumns = [col]
    · subst keyed
      obtain ⟨sent, processed, atAddress⟩ := @processEviction_sent V _ hash child col src tag
        replica keys pos
      rw [processed]
      constructor
      · intro evicted
        refine ⟨rfl, rfl, fun replicated point mem value equal => ?_⟩
        have below := shardBy_lt hash value pos
        obtain ⟨other, isFor⟩ := @exists_mem_replicasFor V child src tag replica keys replicated
        obtain ⟨reached, listed, delivered⟩ := evicted.reached _ mem _ below
          (fun _ => ⟨value, equal, rfl⟩) ⟨child.domain, shardBy hash value child.numShards, other⟩
          rfl rfl isFor
        rw [atAddress] at delivered
        split at delivered
        · obtain rfl : reached = keysOf hash child.numShards keys
              (shardBy hash value child.numShards) := by
            simpa using delivered
          have shards := of_decide_eq_true (mem_filter.mp listed).2
          exact mem_singleton.mp shards
        · exact absurd delivered not_mem_nil
      · rintro ⟨-, -, agree⟩
        refine ⟨rfl, rfl, ?_⟩
        intro key mem shard below holds address sameDomain sameShard isFor
        subst sameShard
        have listed : key ∈ keysOf hash child.numShards keys address.shard := by
          refine mem_filter.mpr ⟨mem, decide_eq_true ?_⟩
          cases key with
          | equal point =>
            obtain ⟨value, equal, atShard⟩ := holds rfl
            exact mem_singleton.mpr (atShard.symm.trans
              (agree (fun none_ => not_mem_nil (none_ ▸ isFor)) point mem value equal))
          | range lower upper => exact mem_range.mpr below
        refine ⟨_, listed, ?_⟩
        rw [atAddress, if_pos ⟨sameDomain, below, isFor, ne_nil_of_mem listed⟩]
        exact mem_singleton_self _
    · exact iff_of_false
        (fun evicted => processEviction_refused keyed short evicted.succeeded)
        (fun well => keyed well.2.1)

end

/-! ## Runs -/

section

variable {hash : DfValue V → Nat} {same : DfValue V → DfValue V → Prop}
  {child : ShardedChild} {col : Nat}

/-- The key columns a request names; a slice of `usize` has fewer than `2 ^ 63`
of them. -/
def Request.keyColumns : Request V → List Nat
  | .process _ _ _ _ _ => []
  | .evict keyColumns _ _ _ _ _ => keyColumns

/-- What has to hold of a request for the sharder to carry it out. -/
def Well (hash : DfValue V → Nat) (same : DfValue V → DfValue V → Prop) (child : ShardedChild)
    (column : Nat) : Request V → Prop
  | .process packet _ isSharded isLastSharderForTag replica =>
    packet.data?.isSome ∧ RoutesWell child packet isSharded isLastSharderForTag replica
  | .evict keyColumns _ keys _ isSharded _ =>
    EvictsWell hash same child column keyColumns keys isSharded

variable [DecidableEq V]

section

variable {request : Request V}

theorem right_iff (pos : 0 < child.numShards) (short : request.keyColumns.length < 2 ^ 63) :
    Right hash same child col request ((child.sharder col).handle hash request) ↔
      Well hash same child col request := by
  cases request with
  | process packet index isSharded isLast replica =>
    constructor
    · rintro ⟨data, carries, routed⟩
      exact ⟨by simp [carries], (routed_process_iff pos carries).mp routed⟩
    · rintro ⟨carrying, well⟩
      obtain ⟨data, carries⟩ := Option.isSome_iff_exists.mp carrying
      exact ⟨data, carries, (routed_process_iff pos carries).mpr well⟩
  | evict keyColumns tag keys src isSharded replica => exact evicted_iff pos short

theorem Right.outcome {outcome : Outcome V} (right : Right hash same child col request outcome) :
    outcome = ⟨outcome.sent, child.sharder col, .ok ()⟩ := by
  obtain ⟨sent, sharder, result⟩ := outcome
  cases request with
  | process packet index isSharded isLast replica =>
    obtain ⟨data, -, routed⟩ := right
    obtain rfl : sharder = _ := routed.restored
    obtain rfl : result = _ := routed.succeeded
    rfl
  | evict keyColumns tag keys src isSharded replica =>
    obtain rfl : sharder = _ := Evicted.restored right
    obtain rfl : result = _ := Evicted.succeeded right
    rfl

theorem step_of_right
    (right : Right hash same child col request ((child.sharder col).handle hash request)) :
    (child.sharder col).step hash request =
      .ok (((child.sharder col).handle hash request).sent, child.sharder col) := by
  have succeeded := congrArg Outcome.result right.outcome
  have restored := congrArg Outcome.sharder right.outcome
  simp [step, succeeded, restored]

end

/-- In every run of requests that all meet the condition, each is carried out
as it should be; the next one is exactly if it meets the condition too. -/
theorem run_right_iff (hash : DfValue V → Nat) (same : DfValue V → DfValue V → Prop)
    (child : ShardedChild) (positive : 0 < child.numShards) (column : Nat)
    (earlier : List (Request V)) (met : ∀ request ∈ earlier, Well hash same child column request)
    (request : Request V) (short : ∀ other ∈ request :: earlier, other.keyColumns.length < 2 ^ 63) :
    ∃ trace, run (Sharder.step hash) (child.sharder column) earlier =
        .ok (trace, child.sharder column) ∧
      trace.map Prod.fst = earlier ∧
      (∀ pair ∈ trace,
        Right hash same child column pair.1 ⟨pair.2, child.sharder column, .ok ()⟩) ∧
      (Right hash same child column request ((child.sharder column).handle hash request) ↔
        Well hash same child column request) := by
  have every : EveryStep (fun _ request => Well hash same child column request ∧
      request.keyColumns.length < 2 ^ 63) earlier := by
    rintro before request after rfl
    exact ⟨met request (by simp), short request (by simp)⟩
  obtain ⟨trace, final, ran, inputs, rfl, rights⟩ := run_invariant (Sharder.step hash)
    (fun trace state => state = child.sharder column ∧ ∀ pair ∈ trace,
      Right hash same child column pair.1 ⟨pair.2, child.sharder column, .ok ()⟩)
    (by
      rintro trace _ request ⟨rfl, rights⟩ ⟨well, short⟩
      have right := (right_iff positive short).mpr well
      refine ⟨_, _, step_of_right right, rfl, ?_⟩
      intro pair member
      rcases List.mem_append.mp member with earlier | last
      · exact rights pair earlier
      · obtain rfl := List.mem_singleton.mp last
        exact right.outcome ▸ right)
    ⟨rfl, fun _ member => absurd member List.not_mem_nil⟩ every
  exact ⟨trace, ran, inputs, rights, right_iff positive (short request List.mem_cons_self)⟩

end

/-! ## Replicated children -/

/-- Two shards of two replicas each, fed by one replica. -/
def replicatedChild : ShardedChild := ⟨3, 7, 2, .fanout 2⟩

def integerHash : DfValue Nat → Nat
  | .none => 0
  | .value datum => datum

/-- The answer to a partial replay of the key `4`. -/
def answerTo (requestingReplica : Nat) : Packet Nat :=
  .replayPiece ⟨0, 0⟩ 5 [.positive [.value 4, .value 9]]
    (.partial_ [.equal [.value 4]] 0 requestingReplica false)

/-- The second replica asks and the first gets the answer; an eviction keyed by
another column than the shard column is refused. -/
theorem misrouted_and_refused :
    (sentTo ((replicatedChild.sharder 0).process integerHash (answerTo 1) 2 false (some true)
        0).sent ⟨3, 0, 1⟩ = [] ∧
      sentTo ((replicatedChild.sharder 0).process integerHash (answerTo 1) 2 false (some true)
        0).sent ⟨3, 0, 0⟩ = [(answerTo 1).withLink ⟨2, 7⟩]) ∧
    ((replicatedChild.sharder 0).processEviction integerHash [1] 5 [.equal [.value 9]] 2 false
      0).result ≠ .ok () := by
  refine ⟨⟨rfl, rfl⟩, ?_⟩
  exact processEviction_refused (by decide) (by decide)

theorem run_right_first_replica :
    ∃ trace, run (Sharder.step integerHash) (replicatedChild.sharder 0)
        [.process (.message ⟨0, 0⟩ [.positive [.value 4, .value 9], .negative [.value 5, .value 9]])
          2 false none 0] = .ok (trace, replicatedChild.sharder 0) ∧
      Right integerHash Eq replicatedChild 0 (.process (answerTo 0) 2 false (some true) 0)
        ((replicatedChild.sharder 0).handle integerHash
          (.process (answerTo 0) 2 false (some true) 0)) := by
  obtain ⟨trace, ran, -, -, iff⟩ := run_right_iff integerHash Eq replicatedChild
    (by decide) 0 [.process (.message ⟨0, 0⟩
      [.positive [.value 4, .value 9], .negative [.value 5, .value 9]]) 2 false none 0]
    (by simp [Well, RoutesWell, Packet.data?, Packet.replayPieceContext])
    (.process (answerTo 0) 2 false (some true) 0) (by simp [Request.keyColumns])
  refine ⟨trace, ran, iff.mpr ?_⟩
  simp [Well, RoutesWell, answerTo, Packet.data?, Packet.replayPieceContext, replicatedChild]

end ReadySet.Dataflow
