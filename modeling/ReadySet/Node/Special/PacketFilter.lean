import ReadySet.Dataflow.Payload

/-!
Owns the packet filter of an egress node (`node/special/packet_filter.rs`): the
keys it remembers for each target, and which records of an update it removes.

`run_keepsNeeded` is about every interleaving of replays, evictions and updates
for any targets: if the steps meet `Admissible`, no update loses a record that
lies in a key replayed before and not evicted since.
-/

namespace ReadySet.Dataflow

open Data Library List Function

universe u

variable {V : Type u} [LinearOrder V] {cols : List Nat} {row : Row V}

/-! ## The filter -/

/-- `NodeKeys`: the requested keys of a target, by the columns they are about.
Neither the map nor the sets have an order that matters. -/
structure NodeKeys (V : Type u) where
  keys : List (List Nat × List (KeyComparison V)) := []
deriving Repr

/-- `PacketFilter`: the keys of each target that is filtered. -/
abbrev PacketFilter (V : Type u) := Nat → Option (NodeKeys V)

/-- `HashSet::extend`. -/
def extendKeys (set keys : List (KeyComparison V)) : List (KeyComparison V) :=
  keys.foldl (fun set key => if set.any (KeyComparison.eq key) then set else set ++ [key]) set

/-- The set of one column list is extended, and made if it is not there. -/
def NodeKeys.addKeys (nodeKeys : NodeKeys V) (columns : List Nat)
    (keys : List (KeyComparison V)) : NodeKeys V :=
  if nodeKeys.keys.any (fun entry => entry.1 = columns) then
    ⟨nodeKeys.keys.map fun entry =>
      if entry.1 = columns then (columns, extendKeys entry.2 keys) else entry⟩
  else ⟨nodeKeys.keys ++ [(columns, extendKeys [] keys)]⟩

/-- The key leaves the set of every column list. -/
def NodeKeys.removeKey (nodeKeys : NodeKeys V) (key : KeyComparison V) : NodeKeys V :=
  ⟨nodeKeys.keys.map fun entry => (entry.1, entry.2.filter fun other => !KeyComparison.eq key other)⟩

/-- `check_bound`: column by column. The values of a key are as many as its
columns; the source panics otherwise. -/
def checkBound (columns : List Nat) (row : Row V) (key : Key V)
    (check : DfValue V → DfValue V → Bool) : Bool :=
  columns.zipIdx.all fun pair => check (row.at pair.1) (key.getD pair.2 .none)

def checkLowerBound (lower : Bound (Key V)) (columns : List Nat) (row : Row V) : Bool :=
  match lower with
  | .included bound => checkBound columns row bound fun value limit => limit ≤ value
  | .excluded bound => checkBound columns row bound fun value limit => limit < value
  | .unbounded => true

def checkUpperBound (upper : Bound (Key V)) (columns : List Nat) (row : Row V) : Bool :=
  match upper with
  | .included bound => checkBound columns row bound fun value limit => value ≤ limit
  | .excluded bound => checkBound columns row bound fun value limit => value < limit
  | .unbounded => true

/-- Whether a row passes one requested key. -/
def KeyComparison.accepts (key : KeyComparison V) (columns : List Nat) (row : Row V) : Bool :=
  match key with
  | .equal point => checkBound columns row point fun value limit => value = limit
  | .range lower upper => checkLowerBound lower columns row && checkUpperBound upper columns row

/-- Whether a row passes any requested key. -/
def NodeKeys.accepts (nodeKeys : NodeKeys V) (row : Row V) : Bool :=
  nodeKeys.keys.any fun entry => entry.2.any fun key => KeyComparison.accepts key entry.1 row

namespace PacketFilter

def addForFiltering (filter : PacketFilter V) (target : Nat) : PacketFilter V :=
  Function.update filter target (some ((filter target).getD {}))

/-- `PacketFilter::process`: whether to send the packet, and what is left of it. -/
def process (filter : PacketFilter V) (packet : Packet V) (keyedBy : Option (List Nat))
    (target : Nat) : ReadySetResult ((Bool × Packet V) × PacketFilter V) :=
  match filter target with
  | none => .ok ((true, packet), filter)
  | some nodeKeys =>
    match packet with
    | .message link data =>
      if nodeKeys.keys.isEmpty then .ok ((false, packet), filter)
      else
        let kept := data.filter fun record => nodeKeys.accepts record.value
        .ok ((!kept.isEmpty, .message link kept), filter)
    | .replayPiece _ _ _ (.partial_ forKeys _ _ _) =>
      match keyedBy with
      | none =>
        .error (.internal "The keyed-by parameter must be present for replay messages")
      | some columns =>
        .ok ((true, packet),
          Function.update filter target (some (nodeKeys.addKeys columns forKeys)))
    | .evictKeys _ _ keys =>
      .ok ((true, packet),
        Function.update filter target (some (keys.foldl NodeKeys.removeKey nodeKeys)))
    | .replayPiece _ _ _ (.regular _) => .ok ((true, packet), filter)

/-- The filter of some targets, before any packet. -/
def ofTargets (targets : List Nat) : PacketFilter V :=
  targets.foldl addForFiltering fun _ => none

end PacketFilter

/-! ## What passes through it -/

/-- A packet on its way to a target. The columns of an eviction are those of
the replay path of its tag, which the filter is not told. -/
inductive Passing (V : Type u) where
  | replay (target : Nat) (columns : List Nat) (link : Link) (tag : Tag) (data : List (Record V))
      (forKeys : List (KeyComparison V)) (requestingShard requestingReplica : Nat)
      (unishard : Bool)
  | eviction (target : Nat) (columns : List Nat) (link : Link) (tag : Tag)
      (keys : List (KeyComparison V))
  | update (target : Nat) (keyedBy : Option (List Nat)) (link : Link) (data : List (Record V))
deriving Repr

def PacketFilter.step (filter : PacketFilter V) :
    Passing V → ReadySetResult ((Bool × Packet V) × PacketFilter V)
  | .replay target columns link tag data forKeys requestingShard requestingReplica unishard =>
    filter.process (.replayPiece link tag data
      (.partial_ forKeys requestingShard requestingReplica unishard)) (some columns) target
  | .eviction target _ link tag keys => filter.process (.evictKeys link tag keys) none target
  | .update target keyedBy link data => filter.process (.message link data) keyedBy target

open PacketFilter (ofTargets process step)

/-- The packet replays a key on some columns of a target. -/
def Passing.Replays (target : Nat) (columns : List Nat) (key : KeyComparison V) :
    Passing V → Prop
  | .replay target' columns' _ _ _ forKeys _ _ _ =>
    target' = target ∧ columns' = columns ∧ key ∈ forKeys
  | .eviction _ _ _ _ _ => False
  | .update _ _ _ _ => False

/-- The packet evicts a key on some columns of a target. -/
def Passing.Evicts (target : Nat) (columns : List Nat) (key : KeyComparison V) :
    Passing V → Prop
  | .eviction target' columns' _ _ keys =>
    target' = target ∧ columns' = columns ∧ ∃ evicted ∈ keys, KeyComparison.eq evicted key
  | .replay _ _ _ _ _ _ _ _ _ => False
  | .update _ _ _ _ => False

/-- A key that was replayed on some columns and not evicted on them since. -/
def Live (target : Nat) (columns : List Nat) (key : KeyComparison V)
    (history : List (Passing V)) : Prop :=
  ∃ earlier replay later, history = earlier ++ replay :: later ∧
    replay.Replays target columns key ∧
      ∀ passing ∈ later, ¬ passing.Evicts target columns key

/-- A record that lies in a live key of a target. -/
def Needed (history : List (Passing V)) (target : Nat) (record : Record V) : Prop :=
  ∃ columns key, Live target columns key history ∧
    KeyComparison.contains key (Row.clonedIndices record.value columns)

/-- What the filter may do to an update: it removes no record that is needed,
and it drops the update only if none of its records is. -/
def KeepsNeeded (history : List (Passing V)) (passing : Passing V) (output : Bool × Packet V) :
    Prop :=
  match passing with
  | .update target _ link data =>
    (∃ keep : Record V → Bool, output.2 = .message link (data.filter keep) ∧
      ∀ record ∈ data, Needed history target record → keep record) ∧
    (output.1 = false → ∀ record ∈ data, ¬ Needed history target record)
  | .replay _ _ _ _ _ _ _ _ _ => True
  | .eviction _ _ _ _ _ => True

/-- The column-by-column check lets every row pass that the key contains. -/
def Passes (columns : List Nat) (key : KeyComparison V) : Prop :=
  ∀ row : Row V, KeyComparison.contains key (row.clonedIndices columns) →
    KeyComparison.accepts key columns row

/-- The endpoints of a key have one value for each column. -/
def Sized (columns : List Nat) : KeyComparison V → Prop
  | .equal point => point.length = columns.length
  | .range lower upper => SizedBound lower ∧ SizedBound upper
where
  SizedBound : Bound (Key V) → Prop
    | .included bound => bound.length = columns.length
    | .excluded bound => bound.length = columns.length
    | .unbounded => True

/-- What a step has to meet: replayed keys pass their own check, and an evicted
key is not remembered for other columns than those it is evicted on. -/
def Admissible (filter : PacketFilter V) : Passing V → Prop
  | .replay _ columns _ _ _ forKeys _ _ _ =>
    ∀ key ∈ forKeys, Sized columns key ∧ Passes columns key
  | .eviction target columns _ _ keys =>
    ∀ nodeKeys, filter target = some nodeKeys →
      ∀ evicted ∈ keys, ∀ entry ∈ nodeKeys.keys, entry.1 ≠ columns →
        ∀ key ∈ entry.2, ¬ KeyComparison.eq evicted key
  | .update _ _ _ _ => True

/-! ## Equal keys -/

omit [LinearOrder V] in
theorem checkBound_iff {key : Key V} {check : DfValue V → DfValue V → Bool} :
    checkBound cols row key check = true ↔
      ∀ idx col, cols[idx]? = some col → check (row.at col) (key.getD idx .none) = true := by
  unfold checkBound
  rw [all_eq_true]
  constructor
  · intro all idx col found
    exact all (col, idx) (mem_zipIdx_iff_getElem?.mpr found)
  · rintro all ⟨col, idx⟩ mem
    exact all idx col (mem_zipIdx_iff_getElem?.mp mem)

/-- A point accepts the rows between itself and itself. -/
theorem KeyComparison.accepts_eq (key : KeyComparison V) (cols : List Nat) (row : Row V) :
    accepts key cols row =
      (checkLowerBound key.startBound cols row && checkUpperBound key.endBound cols row) := by
  cases key with
  | range lower upper => rfl
  | equal point =>
    rw [Bool.eq_iff_iff]
    simp only [accepts, KeyComparison.startBound, KeyComparison.endBound, checkLowerBound,
      checkUpperBound, Bool.and_eq_true, checkBound_iff, decide_eq_true_eq]
    constructor
    · intro equal
      exact ⟨fun idx col found => (equal idx col found).ge,
        fun idx col found => (equal idx col found).le⟩
    · rintro ⟨above, below⟩ idx col found
      exact le_antisymm (below idx col found) (above idx col found)

open KeyComparison (accepts_eq eq eq_iff eq_refl eq_symm eq_trans)

/-! ## What a filter remembers -/

/-- Some key the filter remembers for these columns is the given one. -/
def NodeKeys.Allows (nodeKeys : NodeKeys V) (columns : List Nat) (key : KeyComparison V) : Prop :=
  ∃ entry ∈ nodeKeys.keys, entry.1 = columns ∧ ∃ other ∈ entry.2, KeyComparison.eq other key = true

variable {key : KeyComparison V} {keys : List (KeyComparison V)} {target : Nat}
  {set : List (KeyComparison V)}

theorem mem_extendKeys_of_mem (keys : List (KeyComparison V))
    (mem : key ∈ set) : key ∈ extendKeys set keys := by
  induction keys generalizing set with
  | nil => exact mem
  | cons first rest ih =>
    refine ih ?_
    change key ∈ if set.any (eq first) then set else set ++ [first]
    by_cases present : set.any (eq first)
    · rwa [if_pos present]
    · rw [if_neg present]
      exact mem_append_left _ mem

theorem exists_mem_extendKeys
    (mem : key ∈ keys) : ∃ other ∈ extendKeys set keys, eq other key = true := by
  induction keys generalizing set with
  | nil => exact absurd mem not_mem_nil
  | cons first rest ih =>
    rcases mem_cons.mp mem with rfl | later
    · -- the key is in the set once it is its turn, and stays there
      have present : ∃ other ∈ (if set.any (eq key) then set else set ++ [key]),
          eq other key = true := by
        by_cases present : set.any (eq key)
        · obtain ⟨other, inSet, same⟩ := any_eq_true.mp present
          rw [if_pos present]
          exact ⟨other, inSet, eq_symm same⟩
        · rw [if_neg present]
          exact ⟨key, by simp, eq_refl key⟩
      obtain ⟨other, inSet, same⟩ := present
      exact ⟨other, mem_extendKeys_of_mem rest inSet, same⟩
    · exact ih later

namespace NodeKeys

variable {nodeKeys : NodeKeys V}

theorem allows_addKeys {columns' : List Nat}
    (allows : nodeKeys.Allows cols key) : (nodeKeys.addKeys columns' keys).Allows cols key := by
  obtain ⟨entry, mem, rfl, other, inSet, same⟩ := allows
  unfold addKeys
  split
  · refine ⟨_, mem_map_of_mem mem, ?_⟩
    split
    · next here => exact ⟨here.symm, other, mem_extendKeys_of_mem keys inSet, same⟩
    · exact ⟨rfl, other, inSet, same⟩
  · exact ⟨entry, mem_append_left _ mem, rfl, other, inSet, same⟩

theorem allows_addKeys_self (mem : key ∈ keys) : (nodeKeys.addKeys cols keys).Allows cols key := by
  unfold addKeys
  split
  · next present =>
      obtain ⟨entry, inKeys, here⟩ := any_eq_true.mp present
      refine ⟨_, mem_map_of_mem inKeys, ?_⟩
      rw [if_pos (of_decide_eq_true here)]
      exact ⟨rfl, exists_mem_extendKeys mem⟩
  · exact ⟨_, mem_append_right _ mem_cons_self, rfl, exists_mem_extendKeys mem⟩

theorem allows_removeKeys (kept : ∃ entry ∈ nodeKeys.keys, entry.1 = cols ∧ ∃ other ∈ entry.2,
      eq other key = true ∧ ∀ evicted ∈ keys, ¬ eq evicted other = true) :
    (keys.foldl removeKey nodeKeys).Allows cols key := by
  induction keys generalizing nodeKeys with
  | nil =>
    obtain ⟨entry, mem, here, other, inSet, same, -⟩ := kept
    exact ⟨entry, mem, here, other, inSet, same⟩
  | cons first rest ih =>
    obtain ⟨entry, mem, here, other, inSet, same, notEvicted⟩ := kept
    refine ih ⟨_, mem_map_of_mem mem, here, other, ?_, same,
      fun evicted later => notEvicted evicted (mem_cons_of_mem _ later)⟩
    refine mem_filter.mpr ⟨inSet, ?_⟩
    simpa using notEvicted first mem_cons_self

theorem accepts_of_allows (allows : nodeKeys.Allows cols key)
    (accepts : KeyComparison.accepts key cols row = true) : nodeKeys.accepts row = true := by
  obtain ⟨entry, mem, rfl, other, inSet, same⟩ := allows
  refine any_eq_true.mpr ⟨entry, mem, any_eq_true.mpr ⟨other, inSet, ?_⟩⟩
  obtain ⟨starts, ends⟩ := eq_iff.mp same
  rw [accepts_eq, starts, ends, ← accepts_eq, accepts]

end NodeKeys

/-! ## Runs -/

theorem live_concat {history : List (Passing V)} {passing : Passing V}
    (live : Live target cols key (history ++ [passing])) :
    passing.Replays target cols key ∨
      (Live target cols key history ∧ ¬ passing.Evicts target cols key) := by
  obtain ⟨earlier, replay, later, whole, replays, kept⟩ := live
  rcases eq_nil_or_concat later with rfl | ⟨front, last, rfl⟩
  · obtain ⟨-, rfl⟩ : history = earlier ∧ passing = replay := by
      simpa using append_inj' whole rfl
    exact .inl replays
  · have regrouped : history ++ [passing] = (earlier ++ replay :: front) ++ [last] := by
      simpa using whole
    obtain ⟨rfl, same⟩ := append_inj' regrouped rfl
    obtain rfl : passing = last := by simpa using same
    exact .inr ⟨⟨earlier, replay, front, rfl, replays, fun other mem =>
      kept other (by simp [mem])⟩, kept passing (by simp)⟩

/-- What the filter knows after a history: every live key of a filtered target
is remembered, and passes its own check. -/
def Remembers (targets : List Nat) (history : List (Passing V)) (filter : PacketFilter V) : Prop :=
  ∀ target ∈ targets, ∃ nodeKeys, filter target = some nodeKeys ∧
    ∀ columns key, Live target columns key history →
      nodeKeys.Allows columns key ∧ Passes columns key

section

variable {targets : List Nat} {history : List (Passing V)} {filter : PacketFilter V}
  {nodeKeys : NodeKeys V} {passing : Passing V}

theorem Remembers.update (remembers : Remembers targets history filter)
    (elsewhere : ∀ other cols (key : KeyComparison V), other ≠ target →
      ¬ passing.Replays other cols key)
    (here : target ∈ targets → ∀ cols key, Live target cols key (history ++ [passing]) →
      nodeKeys.Allows cols key ∧ Passes cols key) :
    Remembers targets (history ++ [passing]) (update filter target (some nodeKeys)) := by
  intro other filtered
  by_cases same : other = target
  · subst same
    exact ⟨nodeKeys, update_self _ _ _, here filtered⟩
  · obtain ⟨otherKeys, found, known⟩ := remembers other filtered
    refine ⟨otherKeys, (update_of_ne same _ _).trans found, fun cols key live => ?_⟩
    rcases live_concat live with replays | ⟨live, -⟩
    · exact absurd replays (elsewhere other cols key same)
    · exact known cols key live

theorem Remembers.unchanged (remembers : Remembers targets history filter)
    (noReplay : ∀ target ∈ targets, ∀ cols (key : KeyComparison V),
      ¬ passing.Replays target cols key) : Remembers targets (history ++ [passing]) filter := by
  intro target filtered
  obtain ⟨nodeKeys, found, known⟩ := remembers target filtered
  refine ⟨nodeKeys, found, fun cols key live => ?_⟩
  rcases live_concat live with replays | ⟨live, -⟩
  · exact absurd replays (noReplay target filtered cols key)
  · exact known cols key live

section

variable (remembers : Remembers targets history filter) (filtered : target ∈ targets)
  (found : filter target = some nodeKeys)

include remembers filtered found

theorem Remembers.known (live : Live target cols key history) :
    nodeKeys.Allows cols key ∧ Passes cols key := by
  obtain ⟨nodeKeys', found', known⟩ := remembers target filtered
  obtain rfl : nodeKeys = nodeKeys' := Option.some.inj (found.symm.trans found')
  exact known cols key live

theorem Remembers.accepts {record : Record V} (needed : Needed history target record) :
    nodeKeys.accepts record.value = true := by
  obtain ⟨cols, key, live, contains⟩ := needed
  obtain ⟨allows, passes⟩ := remembers.known filtered found live
  exact NodeKeys.accepts_of_allows allows (passes record.value contains)

end

/-- Only filtered targets have keys, and their live keys are remembered. -/
structure Follows (targets : List Nat) (history : List (Passing V)) (filter : PacketFilter V) :
    Prop where
  unfiltered : ∀ target ∉ targets, filter target = none
  remembers : Remembers targets history filter

variable (follows : Follows targets history filter) {link : Link} {data : List (Record V)}
  {tag : Tag}
include follows

theorem Follows.mem (found : filter target = some nodeKeys) : target ∈ targets := by
  by_contra absent
  rw [follows.unfiltered target absent] at found
  contradiction

theorem Follows.unfiltered_update (filtered : target ∈ targets) :
    ∀ other ∉ targets, update filter target (some nodeKeys) other = none := by
  intro other absent
  have notTarget : other ≠ target := by
    rintro rfl
    exact absent filtered
  rw [update_of_ne notTarget, follows.unfiltered other absent]

/-- A replay is remembered for its target. -/
theorem step_replay
    {forKeys : List (KeyComparison V)} {requestingShard requestingReplica : Nat} {unishard : Bool}
    (passes : ∀ key ∈ forKeys, Passes cols key) :
    ∃ output next, filter.step (.replay target cols link tag data forKeys requestingShard
        requestingReplica unishard) = .ok (output, next) ∧
      Follows targets (history ++ [.replay target cols link tag data forKeys requestingShard
        requestingReplica unishard]) next := by
  cases found : filter target with
  | none =>
    simp only [step, process, found]
    refine ⟨_, _, rfl, follows.unfiltered, follows.remembers.unchanged ?_⟩
    rintro other filtered cols key ⟨rfl, -, -⟩
    obtain ⟨nodeKeys, mem, -⟩ := follows.remembers _ filtered
    rw [found] at mem
    contradiction
  | some nodeKeys =>
    simp only [step, process, found]
    refine ⟨_, _, rfl, follows.unfiltered_update (follows.mem found),
      follows.remembers.update ?_ ?_⟩
    · rintro other cols key notTarget ⟨rfl, -, -⟩
      exact notTarget rfl
    · intro filtered columns' key live
      rcases live_concat live with ⟨-, rfl, mem⟩ | ⟨live, -⟩
      · exact ⟨NodeKeys.allows_addKeys_self mem, passes key mem⟩
      · obtain ⟨allows, passes⟩ := follows.remembers.known filtered found live
        exact ⟨NodeKeys.allows_addKeys allows, passes⟩

/-- An eviction forgets the evicted keys only. -/
theorem step_eviction (admissible : Admissible filter (.eviction target cols link tag keys)) :
    ∃ output next, filter.step (.eviction target cols link tag keys) = .ok (output, next) ∧
      Follows targets (history ++ [.eviction target cols link tag keys]) next := by
  cases found : filter target with
  | none =>
    simp only [step, process, found]
    exact ⟨_, _, rfl, follows.unfiltered, follows.remembers.unchanged fun _ _ _ _ => id⟩
  | some nodeKeys =>
    simp only [step, process, found]
    refine ⟨_, _, rfl, follows.unfiltered_update (follows.mem found),
      follows.remembers.update (fun _ _ _ _ => id) ?_⟩
    intro filtered columns' key live
    rcases live_concat live with replays | ⟨live, notEvicted⟩
    · exact absurd replays id
    · obtain ⟨⟨entry, mem, rfl, other, inSet, same⟩, passes⟩ :=
        follows.remembers.known filtered found live
      refine ⟨NodeKeys.allows_removeKeys ⟨entry, mem, rfl, other, inSet, same, ?_⟩, passes⟩
      intro evicted isEvicted removed
      by_cases here : entry.1 = cols
      · refine notEvicted ⟨rfl, here.symm, evicted, isEvicted, ?_⟩
        exact eq_trans removed same
      · exact admissible nodeKeys found evicted isEvicted entry mem here other inSet removed

/-- An update keeps the records that are needed. -/
theorem step_update {keyedBy : Option (List Nat)} :
    ∃ output, filter.step (.update target keyedBy link data) = .ok (output, filter) ∧
      KeepsNeeded history (.update target keyedBy link data) output := by
  cases found : filter target with
  | none =>
    simp only [step, process, found]
    refine ⟨_, rfl, ⟨fun _ => true, by simp, fun _ _ _ => rfl⟩, ?_⟩
    exact fun dropped => absurd dropped (by simp)
  | some nodeKeys =>
    have accepted : ∀ record ∈ data, Needed history target record →
        nodeKeys.accepts record.value = true := fun record _ needed =>
      follows.remembers.accepts (follows.mem found) found needed
    by_cases nothing : nodeKeys.keys.isEmpty
    · simp only [step, process, found, if_pos nothing]
      refine ⟨_, rfl, ⟨fun _ => true, by simp, fun _ _ _ => rfl⟩, ?_⟩
      intro _ record mem needed
      have accepts := accepted record mem needed
      rw [NodeKeys.accepts, isEmpty_iff.mp nothing] at accepts
      contradiction
    · simp only [step, process, found, if_neg nothing]
      refine ⟨_, rfl, ⟨_, rfl, accepted⟩, ?_⟩
      intro dropped record mem needed
      have kept : record ∈ data.filter fun record => nodeKeys.accepts record.value :=
        mem_filter.mpr ⟨mem, accepted record mem needed⟩
      simp only [Bool.not_eq_false', List.isEmpty_iff] at dropped
      rw [dropped] at kept
      exact not_mem_nil kept

/-- One step: the filter goes on remembering, and keeps what is needed. -/
theorem step_follows (admissible : Admissible filter passing) :
    ∃ output next, filter.step passing = .ok (output, next) ∧
      KeepsNeeded history passing output ∧ Follows targets (history ++ [passing]) next := by
  cases passing with
  | replay target cols link tag data forKeys requestingShard requestingReplica unishard =>
    obtain ⟨output, next, stepped, follows⟩ :=
      step_replay follows fun key mem => (admissible key mem).2
    exact ⟨output, next, stepped, trivial, follows⟩
  | eviction target cols link tag keys =>
    obtain ⟨output, next, stepped, follows⟩ := step_eviction follows admissible
    exact ⟨output, next, stepped, trivial, follows⟩
  | update target keyedBy link data =>
    obtain ⟨output, stepped, keeps⟩ := step_update follows
    exact ⟨output, filter, stepped, keeps, follows.unfiltered,
      follows.remembers.unchanged fun _ _ _ _ => id⟩

omit follows

end

theorem follows_ofTargets {targets : List Nat} :
    Follows targets [] (ofTargets targets : PacketFilter V) := by
  have filtered : ∀ target, (ofTargets targets : PacketFilter V) target =
      if target ∈ targets then some {} else none := by
    intro target
    unfold ofTargets
    induction targets using reverseRecOn with
    | nil => rfl
    | append_singleton targets last ih =>
      rw [foldl_concat, PacketFilter.addForFiltering]
      by_cases here : target = last
      · subst here
        rw [ih]
        split <;> simp
      · rw [update_of_ne here, ih]
        simp [here]
  constructor
  · intro target absent
    rw [filtered, if_neg absent]
  · intro target mem
    refine ⟨{}, by rw [filtered, if_pos mem], ?_⟩
    rintro cols key ⟨earlier, replay, later, whole, -⟩
    simp at whole

/-- In every run whose steps all meet the condition, every update keeps the
records that are needed, and is dropped only if there are none. -/
theorem run_keepsNeeded (targets : List Nat) (passings : List (Passing V))
    (along : Along PacketFilter.step Admissible (PacketFilter.ofTargets targets) passings) :
    ∃ trace final, run PacketFilter.step (PacketFilter.ofTargets targets) passings =
        .ok (trace, final) ∧
      trace.map Prod.fst = passings ∧
      EveryStep (fun earlier pair => KeepsNeeded (earlier.map Prod.fst) pair.1 pair.2) trace := by
  obtain ⟨trace, final, ran, -, every⟩ := run_along_trace PacketFilter.step
    (fun trace filter => Follows targets (trace.map Prod.fst) filter ∧
      EveryStep (fun earlier pair => KeepsNeeded (earlier.map Prod.fst) pair.1 pair.2) trace)
    (by
      rintro trace filter passing ⟨follows, every⟩ admissible
      obtain ⟨output, next, stepped, keeps, followsNext⟩ := step_follows follows admissible
      refine ⟨output, next, stepped, ?_, everyStep_concat.mpr ⟨every, keeps⟩⟩
      simpa using followsNext)
    ⟨follows_ofTargets, everyStep_nil⟩ along
  exact ⟨trace, final, ran, run_inputs PacketFilter.step ran, every⟩

/-! ## Keys that pass their own check -/

theorem passes_equal {point : Key V} : Passes cols (.equal point) := by
  intro row contains
  obtain rfl : row.clonedIndices cols = point := KeyComparison.contains_equal.mp contains
  rw [KeyComparison.accepts, checkBound_iff]
  intro idx col found
  simp [Row.clonedIndices, found]

section

variable {col : Nat}

omit [LinearOrder V] in
theorem checkBound_column {limit : DfValue V} {check : DfValue V → DfValue V → Bool} :
    checkBound [col] row [limit] check = check (row.at col) limit := by
  simp [checkBound]

theorem checkLowerBound_column {lower : Bound (Key V)} (sized : Sized.SizedBound [col] lower)
    (above : lower.belowKey (row.clonedIndices [col]) = true) :
    checkLowerBound lower [col] row = true := by
  cases lower with
  | unbounded => rfl
  | included bound =>
    obtain ⟨limit, rfl⟩ := length_eq_one_iff.mp sized
    have isAbove : (compare (row.at col) limit).isGE = true := by rwa [← Key.cmp_singleton]
    rw [checkLowerBound, checkBound_column, decide_eq_true_iff]
    exact compare_ge_iff_ge.mp (Ordering.isGE_iff_ne_lt.mp isAbove)
  | excluded bound =>
    obtain ⟨limit, rfl⟩ := length_eq_one_iff.mp sized
    have isAbove : (compare (row.at col) limit).isGT = true := by rwa [← Key.cmp_singleton]
    rw [checkLowerBound, checkBound_column, decide_eq_true_iff]
    exact compare_gt_iff_gt.mp (Ordering.isGT_iff_eq_gt.mp isAbove)

theorem checkUpperBound_column {upper : Bound (Key V)} (sized : Sized.SizedBound [col] upper)
    (below : upper.aboveKey (row.clonedIndices [col]) = true) :
    checkUpperBound upper [col] row = true := by
  cases upper with
  | unbounded => rfl
  | included bound =>
    obtain ⟨limit, rfl⟩ := length_eq_one_iff.mp sized
    have isBelow : (compare (row.at col) limit).isLE = true := by rwa [← Key.cmp_singleton]
    rw [checkUpperBound, checkBound_column, decide_eq_true_iff]
    exact compare_le_iff_le.mp (Ordering.isLE_iff_ne_gt.mp isBelow)
  | excluded bound =>
    obtain ⟨limit, rfl⟩ := length_eq_one_iff.mp sized
    have isBelow : (compare (row.at col) limit).isLT = true := by rwa [← Key.cmp_singleton]
    rw [checkUpperBound, checkBound_column, decide_eq_true_iff]
    exact compare_lt_iff_lt.mp (Ordering.isLT_iff_eq_lt.mp isBelow)

/-- Over one column the check is the order of the keys, for ranges too. -/
theorem passes_column {key : KeyComparison V} (sized : Sized [col] key) :
    Passes [col] key := by
  intro row contains
  cases key with
  | equal point => exact passes_equal row contains
  | range lower upper =>
    obtain ⟨above, below⟩ := Bool.and_eq_true_iff.mp contains
    exact Bool.and_eq_true_iff.mpr
      ⟨checkLowerBound_column sized.1 above, checkUpperBound_column sized.2 below⟩

end

/-! ## Keys the filter forgets or misreads -/

/-- A replay of one key to the target `3`. -/
def replayOf (columns : List Nat) (key : KeyComparison Nat) : Passing Nat :=
  .replay 3 columns ⟨0, 0⟩ 1 [] [key] 0 0 false

/-- The key `1` is replayed on two columns and evicted on the first; a range of
two columns is replayed. -/
def evictedElsewhere : List (Passing Nat) :=
  [replayOf [0] (.equal [.value 1]), replayOf [1] (.equal [.value 1]),
    .eviction 3 [0] ⟨0, 0⟩ 1 [.equal [.value 1]]]

def replayedRange : List (Passing Nat) :=
  [replayOf [0, 1] (.range (.included [.value 1, .value 5]) (.included [.value 2, .value 3]))]

/-- The row `(5, 1)` is needed for the key on the second column and `(1, 9)`
lies between `(1, 5)` and `(2, 3)`; both are removed. -/
theorem needed_removed :
    (Needed evictedElsewhere 3 (.positive [.value 5, .value 1]) ∧
      (run PacketFilter.step (PacketFilter.ofTargets [3]) (evictedElsewhere ++
        [.update 3 none ⟨0, 0⟩ [.positive [.value 5, .value 1]]])).map
          (fun result => result.1.getLast?.map Prod.snd) =
        .ok (some (false, .message ⟨0, 0⟩ []))) ∧
    (Needed replayedRange 3 (.positive [.value 1, .value 9]) ∧
      (run PacketFilter.step (PacketFilter.ofTargets [3]) (replayedRange ++
        [.update 3 none ⟨0, 0⟩ [.positive [.value 1, .value 9]]])).map
          (fun result => result.1.getLast?.map Prod.snd) =
        .ok (some (false, .message ⟨0, 0⟩ []))) := by
  refine ⟨⟨⟨[1], .equal [.value 1], ⟨[_], _, [_], rfl, ⟨rfl, rfl, by simp⟩, ?_⟩, by decide⟩, rfl⟩,
    ⟨[0, 1], _, ⟨[], _, [], rfl, ⟨rfl, rfl, List.mem_singleton_self _⟩, by simp⟩, by decide⟩, rfl⟩
  intro passing member evicts
  obtain rfl := List.mem_singleton.mp member
  exact absurd evicts.2.1 (by decide)

/-- Replays of a point and of a range, an eviction of another key and an update. -/
def pointAndRange : List (Passing Nat) :=
  [replayOf [0] (.equal [.value 1]), replayOf [1] (.range (.excluded [.value 4]) .unbounded),
    .eviction 3 [0] ⟨0, 0⟩ 1 [.equal [.value 2]],
    .update 3 none ⟨0, 0⟩ [.positive [.value 1, .value 0], .negative [.value 2, .value 9]]]

theorem run_keepsNeeded_pointAndRange :
    ∃ trace final, run PacketFilter.step (PacketFilter.ofTargets [3]) pointAndRange =
        .ok (trace, final) ∧ trace.map Prod.fst = pointAndRange ∧
      EveryStep (fun earlier pair => KeepsNeeded (earlier.map Prod.fst) pair.1 pair.2) trace := by
  refine run_keepsNeeded [3] pointAndRange (along_cons _ ?_ rfl (along_cons _ ?_ rfl
    (along_cons _ ?_ rfl ⟨trivial, fun _ _ _ => trivial⟩)))
  · intro key member
    obtain rfl := List.mem_singleton.mp member
    exact ⟨rfl, passes_equal⟩
  · intro key member
    obtain rfl := List.mem_singleton.mp member
    exact ⟨⟨rfl, trivial⟩, passes_column ⟨rfl, trivial⟩⟩
  · intro nodeKeys found evicted isEvicted entry mem elsewhere key inKeys
    obtain rfl := List.mem_singleton.mp isEvicted
    obtain rfl := Option.some.inj (found.symm.trans rfl)
    revert key
    revert elsewhere
    revert entry
    decide

end ReadySet.Dataflow
