import ReadySet.Library.Keyed
import ReadySet.Ops.TopK.Group

/-!
Owns what the top-k operator does to its contents over a whole update batch:
the loop over the sorted batch comes apart into its groups, each group ends in
an `Outcome`, and the contents are the group tops of the updated parent exactly
when every group meets `TopK.GroupSettled`.
-/

namespace ReadySet.Ops

open Data Library Dataflow List

universe u

namespace TopK

variable {V : Type u} [LinearOrder V] {topk : TopK} {states : StateMap V}
  {ownState parent : State V} {own before after : Multiset (Row V)} {batch : List (Record V)}

def group (topk : TopK) (table : Multiset (Row V)) (key : Key V) : Multiset (Row V) :=
  matching table topk.groupBy key

def groupRecords (topk : TopK) (batch : List (Record V)) (key : Key V) : List (Record V) :=
  batch.filter fun record => record.value.clonedIndices topk.groupBy = key

/-- **A valid update batch for fully materialized own state and parent.** The
own contents are the group tops of the parent before the batch; lookups into
the parent see it after the batch. -/
structure Update (topk : TopK) (states : StateMap V) (ownState parent : State V)
    (own before after : Multiset (Row V)) (batch : List (Record V)) : Prop where
  ownHere : states topk.ourIndex = some ownState
  ownFull : FullOn ownState topk.groupBy own
  parentHere : states topk.src = some parent
  parentFull : FullOn parent topk.groupBy after
  valid : applyAll before batch = some after
  top : ∀ key, IsTop topk.order.le topk.k (topk.group own key) (topk.group before key)
  /-- The records have the group columns. -/
  columns : ∀ record ∈ batch, ∀ column ∈ topk.groupBy, column < record.value.length

/-! ## One group of the loop -/

section

variable (topk) (containers : Containers V topk.order) (replay : ReplayContext V)
  (nodes : DomainNodes V) (states : StateMap V) (ownState : State V)

/-- A group from its first record to its end. -/
def processGroup (finished : LoopState V) (group : Key V × List (Record V)) :
    ReadySetResult (LoopState V) := do
  let started ← topk.startGroup containers replay.key.isSome ownState group.1 finished
  let ran ← group.2.foldlM (topk.onLoop containers replay ownState states nodes) started
  topk.finishGroup containers replay.key.isSome states nodes ran

/-- What a group with these rows emits for its records, and the lookup it makes. -/
def groupOutput (key : Key V) (rows : List (Row V)) (records : List (Record V)) :
    ReadySetResult (List (Record V) × Option (Lookup V)) := do
  let ran := topk.onRecords containers rows.length
    (containers.heap.extend [] (rows.map fun row => { row, isNew := false })) records
  let (emitted, lookup) ← topk.postGroup containers ran.1 key rows.length states nodes
  return (ran.2 ++ emitted, lookup)

variable {topk} {loop finished : LoopState V} {key : Key V} {records : List (Record V)}

/-- The miss that a record of a group without rows causes. -/
def missOf (record : Record V) : Miss V :=
  Miss.build topk.ourIndex topk.groupBy (.recordColumns topk.groupBy) replay none record.value

variable {containers replay nodes states ownState}

section

variable (keyed : ∀ record ∈ records, topk.projectGroup record.value = .ok loop.groupKey)

include keyed

theorem foldlM_onLoop_hit (hit : loop.missed = false) :
    records.foldlM (topk.onLoop containers replay ownState states nodes) loop = .ok { loop with
        current := (topk.onRecords containers loop.originalGroupLen loop.current records).1
        out := loop.out ++
          (topk.onRecords containers loop.originalGroupLen loop.current records).2 } := by
  induction records generalizing loop with
  | nil => simp [onRecords]
  | cons record records ih =>
    have stepped : topk.onLoop containers replay ownState states nodes loop record = .ok { loop with
          current := (topk.onRecord containers loop.originalGroupLen loop.current record).1
          out := loop.out ++
            (topk.onRecord containers loop.originalGroupLen loop.current record).2 } := by
      rw [onLoop, keyed record (by simp)]
      simp [hit]
    rw [foldlM_cons, stepped, ok_bind, ih]
    · simp [onRecords]
    · exact fun other mem => keyed other (by simp [mem])
    · exact hit

theorem foldlM_onLoop_missed (missed : loop.missed = true) :
    records.foldlM (topk.onLoop containers replay ownState states nodes) loop = .ok
      { loop with misses := loop.misses ++ records.map (@missOf V _ topk replay) } := by
  induction records generalizing loop with
  | nil => simp
  | cons record records ih =>
    have stepped : topk.onLoop containers replay ownState states nodes loop record = .ok
        { loop with misses := loop.misses ++ [@missOf V _ topk replay record] } := by
      rw [onLoop, keyed record (by simp)]
      simp [missed, missOf]
    rw [foldlM_cons, stepped, ok_bind, ih]
    · simp
    · exact fun other mem => keyed other (by simp [mem])
    · exact missed

end

theorem startGroup_groupKey {isReplay : Bool} {started : LoopState V}
    (start : topk.startGroup containers isReplay ownState key finished = .ok started) :
    started.groupKey = key := by
  rw [startGroup] at start
  split at start
  · split at start <;> obtain rfl := Except.ok.inj start <;> rfl
  · contradiction

/-- A group that starts finishes the one before. -/
theorem foldlM_onLoop_other (some : records ≠ [])
    (keyed : ∀ record ∈ records, topk.projectGroup record.value = .ok key)
    (other : loop.groupKey ≠ key) :
    records.foldlM (topk.onLoop containers replay ownState states nodes) loop =
      topk.finishGroup containers replay.key.isSome states nodes loop >>= fun finished =>
        topk.startGroup containers replay.key.isSome ownState key finished >>=
          records.foldlM (topk.onLoop containers replay ownState states nodes) := by
  obtain ⟨record, later, rfl⟩ := exists_cons_of_ne_nil some
  have projected := keyed record (by simp)
  rw [foldlM_cons, onLoop, projected]
  simp only [ok_bind, if_neg other]
  cases topk.finishGroup containers replay.key.isSome states nodes loop with
  | error error => rfl
  | ok finished =>
    cases start : topk.startGroup containers replay.key.isSome ownState key finished with
    | error error => simp [start]
    | ok started =>
      simp only [ok_bind, start]
      rw [foldlM_cons, onLoop, projected]
      simp [if_pos (startGroup_groupKey start)]

/-- The loop over a list that comes apart into groups handles the groups one
after the other. -/
theorem foldlM_groups (groups : List (Key V × List (Record V)))
    (nonempty : ∀ group ∈ groups, group.2 ≠ [])
    (keyed : ∀ group ∈ groups, ∀ record ∈ group.2, topk.projectGroup record.value = .ok group.1)
    (nodup : (groups.map Prod.fst).Nodup) (fresh : ∀ group ∈ groups, loop.groupKey ≠ group.1) :
    ((groups.map Prod.snd).flatten.foldlM (topk.onLoop containers replay ownState states nodes) loop
        >>= topk.finishGroup containers replay.key.isSome states nodes) =
      topk.finishGroup containers replay.key.isSome states nodes loop >>=
        groups.foldlM (topk.processGroup containers replay nodes states ownState) := by
  induction groups generalizing loop with
  | nil => exact (bind_pure _).symm
  | cons head groups ih =>
    obtain ⟨notLater, distinctLater⟩ := nodup_cons.mp nodup
    rw [map_cons, flatten_cons, foldlM_append, foldlM_onLoop_other
      (nonempty head (by simp)) (keyed head (by simp)) (fresh head (by simp))]
    cases topk.finishGroup containers replay.key.isSome states nodes loop with
    | error error => rfl
    | ok finished =>
      simp only [ok_bind, foldlM_cons, processGroup]
      cases start : topk.startGroup containers replay.key.isSome ownState head.1 finished with
      | error error => rfl
      | ok started =>
        have isKey := startGroup_groupKey start
        obtain ⟨final, ran, finalKey⟩ : ∃ final, head.2.foldlM
            (topk.onLoop containers replay ownState states nodes) started = .ok final ∧
              final.groupKey = started.groupKey := by
          have keyedHead := keyed head (by simp)
          rw [← isKey] at keyedHead
          cases state : started.missed with
          | true => exact ⟨_, foldlM_onLoop_missed keyedHead state, rfl⟩
          | false => exact ⟨_, foldlM_onLoop_hit keyedHead state, rfl⟩
        simp only [ok_bind, ran]
        exact ih (fun group mem => nonempty group (by simp [mem]))
          (fun group mem => keyed group (by simp [mem])) distinctLater
          fun group mem same => notLater (isKey ▸ finalKey ▸ same ▸ mem_map_of_mem mem)

theorem processGroup_hit {rows : List (Row V)} (empty : finished.current = []) (some : key ≠ [])
    (found : ownState.lookup topk.groupBy key = .some rows)
    (keyed : ∀ record ∈ records, topk.projectGroup record.value = .ok key) :
    topk.processGroup containers replay nodes states ownState finished (key, records) =
      topk.groupOutput containers nodes states key rows records >>= fun output => .ok
        { groupKey := key
          originalGroupLen := rows.length
          out := finished.out ++ output.1
          misses := finished.misses
          lookups := if replay.key.isSome then
              finished.lookups ++ [{ on := topk.ourIndex, cols := topk.groupBy, key := .equal key }] ++
                output.2.toList
            else finished.lookups } := by
  simp only [processGroup, startGroup, empty, found, isEmpty_nil, if_true, pure_eq_ok, ok_bind]
  rw [foldlM_onLoop_hit keyed rfl]
  simp only [ok_bind, finishGroup, if_neg some, groupOutput]
  cases topk.postGroup containers _ key rows.length states nodes with
  | error error => rfl
  | ok output => cases replay.key.isSome <;> simp

end

/-! ## The groups of a batch -/

/-- The records of each group, as the sort brings them together. -/
def groupsOf (topk : TopK) (batch : List (Record V)) : List (Key V × List (Record V)) :=
  Library.groupsOf Key.cmp (fun record : Record V =>
    (topk.projectGroup record.value).toOption.getD []) batch

section

variable (columns : ∀ record ∈ batch, ∀ col ∈ topk.groupBy, col < record.value.length)

include columns

theorem filter_groupKey (key : Key V) :
    (batch.filter fun record => (topk.projectGroup record.value).toOption.getD [] = key) =
      topk.groupRecords batch key := by
  refine filter_congr fun record mem => ?_
  rw [projectGroup, if_pos (columns record mem)]
  rfl

variable {group : Key V × List (Record V)} (mem : group ∈ topk.groupsOf batch)
include mem

theorem groupsOf_records : group.2 = topk.groupRecords batch group.1 :=
  (eq_filter_of_mem_groupsOf mem).trans (filter_groupKey columns group.1)

theorem groupsOf_keyed : ∀ record ∈ group.2, topk.projectGroup record.value = .ok group.1 := by
  intro record present
  rw [groupsOf_records columns mem] at present
  obtain ⟨inBatch, isKey⟩ := mem_filter.mp present
  rw [projectGroup, if_pos (columns record inBatch), of_decide_eq_true isKey]

theorem groupsOf_length : group.1.length = topk.groupBy.length := by
  obtain ⟨record, present⟩ := exists_mem_of_ne_nil _ (ne_nil_of_mem_groupsOf mem)
  rw [groupsOf_records columns mem] at present
  rw [← of_decide_eq_true (mem_filter.mp present).2, Row.length_clonedIndices]

theorem groupsOf_key_ne_nil : group.1 ≠ [] := by
  intro none
  have length := groupsOf_length columns mem
  rw [none] at length
  exact topk.groupBy_nonempty (length_eq_zero_iff.mp length.symm)

omit mem

/-- The operator handles the groups of a batch one after the other. -/
theorem onInput_eq (containers : Containers V topk.order) (replay : ReplayContext V)
    (nodes : DomainNodes V) (ownHere : states topk.ourIndex = some ownState) :
    topk.onInput containers batch replay nodes states =
      (topk.groupsOf batch).foldlM (topk.processGroup containers replay nodes states ownState) {} >>=
        fun loop => .ok { results := loop.out, misses := loop.misses, lookups := loop.lookups } := by
  by_cases none : batch = []
  · subst none
    rfl
  have looped := @foldlM_groups V _ topk containers replay nodes states ownState {}
    (topk.groupsOf batch) (fun _ => ne_nil_of_mem_groupsOf) (fun _ => groupsOf_keyed columns)
    groupsOf_keys_nodup fun _ mem => (groupsOf_key_ne_nil columns mem).symm
  rw [groupsOf, Library.groupsOf, runs_flatten] at looped
  rw [onInput, if_neg none]
  simp only [ownHere]
  rw [← bind_assoc, looped]
  rfl

end

section

variable (containers : Containers V topk.order) (nodes : DomainNodes V) {key : Key V}

section

variable (update : Update topk states ownState parent own before after batch)
  (length : key.length = topk.groupBy.length)

include update length

/-- **One group** emits records that take its own rows to an outcome. -/
theorem groupOutput_spec (records : List (Record V)) :
    ∃ emitted lookup settled, topk.groupOutput containers nodes states key
        (ownState.rowsFor topk.groupBy key) records = .ok (emitted, lookup) ∧
      applyAll (topk.group own key) emitted = some settled ∧
      topk.Outcome containers (topk.group own key)
        (topk.tracked (decide (topk.k ≤ (topk.group own key).card)) (topk.group own key) records)
        (parent.rowsFor topk.groupBy key) settled := by
  obtain ⟨_, contents⟩ := update.ownFull.rowsFor length
  set rows := ownState.rowsFor topk.groupBy key
  have card : rows.length = (topk.group own key).card := by
    rw [group, ← contents, Multiset.coe_card]
  set current := containers.heap.extend [] (rows.map fun row => { row, isNew := false })
  have extended := containers.heap.extend_perm []
    (rows.map fun row => ({ row, isNew := false } : CurrentRecord V))
  rw [nil_append] at extended
  have isRows : rowsOf current = topk.group own key := by
    rw [rowsOf_perm extended, rowsOf_map, contents, group]
  have isOld : oldRows current = topk.group own key := by
    rw [oldRows_perm extended, oldRows_map_old, contents, group]
  obtain ⟨trackedRows, removed⟩ := topk.onRecords_spec containers rows.length current records
  obtain ⟨emitted, lookup, settled, posted, applied, outcome⟩ :=
    topk.postGroup_spec containers nodes update.parentHere update.parentFull length
      (topk.onRecords containers rows.length current records).1 (topk.group own key)
  rw [trackedRows, isRows, card] at outcome
  rw [← card] at posted
  rw [isOld] at removed
  refine ⟨(topk.onRecords containers rows.length current records).2 ++ emitted, lookup, settled, ?_,
    ?_, outcome⟩
  · rw [groupOutput, posted]
    rfl
  · rw [applyAll_append, removed]
    exact applied

theorem outcome_mem {settled : Multiset (Row V)}
    (outcome : topk.Outcome containers (topk.group own key) (topk.tracked (decide (topk.k ≤
      (topk.group own key).card)) (topk.group own key) (topk.groupRecords batch key))
      (parent.rowsFor topk.groupBy key) settled)
    {row : Row V} (mem : row ∈ settled) : row.clonedIndices topk.groupBy = key := by
  have inGroup : row ∈ topk.group after key → row.clonedIndices topk.groupBy = key :=
    fun present => (Multiset.mem_filter.mp present).2
  have trackedSub := topk.tracked_le (decide (topk.k ≤ (topk.group own key).card))
    (update.top key).sub (applyAll_filter _ update.valid)
  obtain ⟨_, contents⟩ := update.parentFull.rowsFor length
  refine inGroup ?_
  rw [Outcome] at outcome
  split_ifs at outcome with short
  · rw [outcome] at mem
    rcases Multiset.mem_add.mp mem with isTracked | isBackfill
    · exact Multiset.mem_of_le trackedSub isTracked
    · have isRow : row ∈ parent.rowsFor topk.groupBy key := by
        have inSorted := mem_of_mem_drop (mem_of_mem_take (Multiset.mem_coe.mp isBackfill))
        exact (containers.sortUnstable.perm _).mem_iff.mp inSorted
      rw [group, ← contents]
      exact Multiset.mem_coe.mpr isRow
  · obtain ⟨dropped, parts, _, _⟩ := outcome
    refine Multiset.mem_of_le trackedSub (Multiset.mem_of_le ?_ mem)
    exact parts ▸ Multiset.le_add_right settled dropped

end

/-- The groups handled so far, with what was emitted for them. -/
structure Handled (batch : List (Record V)) (own : Multiset (Row V)) (parent : State V)
    (done : List (Key V × List (Record V))) (loop : LoopState V) : Prop where
  current : loop.current = []
  noMisses : loop.misses = []
  emitted : ∃ emitted : List (Key V × List (Record V)),
    emitted.map Prod.fst = done.map Prod.fst ∧ loop.out = emitted.flatMap Prod.snd ∧
      ∀ group ∈ emitted, ∃ settled, applyAll (topk.group own group.1) group.2 = some settled ∧
        topk.Outcome containers (topk.group own group.1)
          (topk.tracked (decide (topk.k ≤ (topk.group own group.1).card)) (topk.group own group.1)
            (topk.groupRecords batch group.1)) (parent.rowsFor topk.groupBy group.1) settled

variable (update : Update topk states ownState parent own before after batch)
include update

/-- One more group is handled. -/
theorem Handled.processGroup {done : List (Key V × List (Record V))} {loop : LoopState V}
    {group : Key V × List (Record V)} (mem : group ∈ topk.groupsOf batch)
    (handled : Handled containers batch own parent done loop) :
    ∃ next, topk.processGroup containers .none nodes states ownState loop group = .ok next ∧
      Handled containers batch own parent (done ++ [group]) next := by
  have length := groupsOf_length update.columns mem
  obtain ⟨emitted, lookup, settled, output, applied, outcome⟩ :=
    groupOutput_spec containers nodes update length group.2
  obtain ⟨earlier, keys, results, outcomes⟩ := handled.emitted
  rw [groupsOf_records update.columns mem] at outcome
  have processed : topk.processGroup containers .none nodes states ownState loop group = _ :=
    processGroup_hit handled.current (groupsOf_key_ne_nil update.columns mem)
      (update.ownFull.rowsFor length).1 (groupsOf_keyed update.columns mem)
  rw [output] at processed
  refine ⟨_, processed, rfl, handled.noMisses, earlier ++ [(group.1, emitted)], by simp [keys],
    by simp [results], ?_⟩
  intro other isOther
  rcases mem_append.mp isOther with old | new
  · exact outcomes other old
  · rw [mem_singleton.mp new]
    exact ⟨settled, applied, outcome⟩

/-- **A batch through the operator**: it succeeds without a miss, groups without
records keep their rows, and every other group ends in an outcome. -/
theorem onInput_spec :
    ∃ result replaced,
      topk.onInput containers batch .none nodes states = .ok result ∧ result.misses = [] ∧
      applyAll own result.results = some replaced ∧
      ∀ key, (topk.groupRecords batch key = [] → topk.group replaced key = topk.group own key) ∧
        (topk.groupRecords batch key ≠ [] → topk.Outcome containers (topk.group own key)
          (topk.tracked (decide (topk.k ≤ (topk.group own key).card)) (topk.group own key)
            (topk.groupRecords batch key))
          (parent.rowsFor topk.groupBy key) (topk.group replaced key)) := by
  obtain ⟨loop, looped, handled⟩ := foldlM_invariant
    (topk.processGroup containers .none nodes states ownState)
    (Handled containers batch own parent) (topk.groupsOf batch)
    (fun done group rest loop split handled =>
      handled.processGroup containers nodes update (by simp [split]))
    (⟨rfl, rfl, [], rfl, rfl, by simp⟩ : Handled containers batch own parent [] {})
  obtain ⟨emitted, keys, results, outcomes⟩ := handled.emitted
  choose! settled applied outcome using outcomes
  obtain ⟨replaced, appliedAll, here, elsewhere⟩ :=
    @applyAll_parts _ _ _ (fun row : Row V => row.clonedIndices topk.groupBy) own _ emitted
      (keys ▸ groupsOf_keys_nodup) settled applied fun group mem row inSettled => by
        have inKeys : group.1 ∈ (topk.groupsOf batch).map Prod.fst := keys ▸ mem_map_of_mem mem
        obtain ⟨run, isRun, same⟩ := mem_map.mp inKeys
        exact outcome_mem containers update (same ▸ groupsOf_length update.columns isRun)
          (outcome group mem) inSettled
  have touched : ∀ key, key ∈ emitted.map Prod.fst ↔ topk.groupRecords batch key ≠ [] := by
    intro key
    rw [keys, groupsOf, mem_keys_groupsOf, filter_groupKey update.columns]
  refine ⟨_, replaced, (onInput_eq update.columns containers .none nodes update.ownHere).trans
    (by rw [looped]; rfl), handled.noMisses, results ▸ appliedAll,
    fun key => ⟨fun none => elsewhere key ?_, fun some => ?_⟩⟩
  · rw [touched, not_not]
    exact none
  · obtain ⟨group, mem, rfl⟩ := mem_map.mp ((touched key).mpr some)
    rw [show topk.group replaced group.1 = settled group from here group mem]
    exact outcome group mem

theorem group_after_eq (none : topk.groupRecords batch key = []) :
    topk.group after key = topk.group before key := by
  have restricted := applyAll_filter (fun row => row.clonedIndices topk.groupBy = key) update.valid
  have noRecords : (batch.filter fun record =>
      decide (record.value.clonedIndices topk.groupBy = key)) = [] := none
  rw [noRecords] at restricted
  exact (Option.some.inj restricted).symm

omit update

/-- **A batch leaves the operator with the top of every group of the updated
parent exactly when** every group with records in the batch is settled. -/
theorem onInput_isTop_iff (update : Update topk states ownState parent own before after batch) :
    (∃ result replaced,
        topk.onInput containers batch .none nodes states = .ok result ∧ result.misses = [] ∧
        applyAll own result.results = some replaced ∧
        ∀ key, IsTop topk.order.le topk.k (topk.group replaced key) (topk.group after key)) ↔
      ∀ record ∈ batch,
        topk.GroupSettled containers
          (topk.group own (record.value.clonedIndices topk.groupBy))
          (topk.groupRecords batch (record.value.clonedIndices topk.groupBy))
          (parent.rowsFor topk.groupBy (record.value.clonedIndices topk.groupBy)) := by
  obtain ⟨result, replaced, ran, misses, applied, groups⟩ := onInput_spec containers nodes update
  have settled_iff {record : Record V} {key : Key V} (present : record ∈ topk.groupRecords batch key) :
      IsTop topk.order.le topk.k (topk.group replaced key) (topk.group after key) ↔
        topk.GroupSettled containers (topk.group own key) (topk.groupRecords batch key)
          (parent.rowsFor topk.groupBy key) := by
    have isKey : record.value.clonedIndices topk.groupBy = key := by
      simpa using (List.mem_filter.mp present).2
    refine topk.outcome_isTop_iff containers (update.top _) (applyAll_filter _ update.valid) ?_
      ((groups _).2 (List.ne_nil_of_mem present))
    exact (update.parentFull.rowsFor (isKey ▸ Row.length_clonedIndices _ _)).2
  constructor
  · rintro ⟨other, otherReplaced, ranOther, _, appliedOther, tops⟩ record member
    obtain rfl : result = other := Except.ok.inj (ran.symm.trans ranOther)
    obtain rfl : replaced = otherReplaced := Option.some.inj (applied.symm.trans appliedOther)
    exact (settled_iff (List.mem_filter.mpr ⟨member, by simp⟩)).mp (tops _)
  · intro settled
    refine ⟨result, replaced, ran, misses, applied, fun key => ?_⟩
    by_cases none : topk.groupRecords batch key = []
    · rw [(groups key).1 none, group_after_eq update none]
      exact update.top key
    · obtain ⟨record, present⟩ := List.exists_mem_of_ne_nil _ none
      obtain ⟨member, isKey⟩ := List.mem_filter.mp present
      obtain rfl : record.value.clonedIndices topk.groupBy = key := by simpa using isKey
      exact (settled_iff present).mpr (settled record member)

end

/-! ## A group emptied within a batch -/

/-- The two greatest second columns for each first column. -/
def drained : TopK where
  src := 0
  ourIndex := 1
  groupBy := [0]
  order := [(1, .orderAscending)]
  k := 2
  groupBy_nonempty := by decide

def drainedContainers : Containers Nat drained.order where
  heap := @BinaryHeap.simple _ (CurrentRecord.cmp drained.order) (currentRecordTransCmp _)
  sortUnstable := @UnstableSort.simple _ (descending drained.order) (descendingTransCmp _)

def drainedOwn : List (Row Nat) := [[.value 0, .value 10], [.value 0, .value 9]]

def drainedBefore : List (Row Nat) :=
  [[.value 0, .value 10], [.value 0, .value 9], [.value 0, .value 8]]

def drainedAfter : List (Row Nat) := [[.value 0, .value 7], [.value 0, .value 8]]

/-- Both tracked rows are deleted before a row below the untracked one comes. -/
def drainedBatch : List (Record Nat) :=
  [.negative [.value 0, .value 10], .negative [.value 0, .value 9],
    .positive [.value 0, .value 7]]

def drainedStates : StateMap Nat
  | 0 => some (State.ofTable drainedAfter)
  | 1 => some (State.ofTable drainedOwn)
  | _ => none

theorem drainedTop (key : Key Nat) :
    IsTop drained.order.le drained.k (drained.group drainedOwn key)
      (drained.group drainedBefore key) := by
  by_cases isGroup : key = [.value 0]
  · subst isGroup
    exact ⟨by decide, by decide, by decide⟩
  · have empty : ∀ table : List (Row Nat),
        (∀ row ∈ table, row.clonedIndices drained.groupBy = [.value 0]) →
          drained.group table key = 0 := by
      intro table oneGroup
      unfold group matching
      refine Multiset.filter_eq_nil.mpr fun row mem inGroup => isGroup ?_
      rw [← inGroup, oneGroup row (Multiset.mem_coe.mp mem)]
    rw [empty drainedOwn (by decide), empty drainedBefore (by decide)]
    exact ⟨le_rfl, (Nat.min_eq_right (Nat.zero_le _)).symm, by simp⟩

theorem drainedUpdate :
    Update drained drainedStates (State.ofTable drainedOwn) (State.ofTable drainedAfter)
      drainedOwn drainedBefore drainedAfter drainedBatch where
  ownHere := rfl
  ownFull := State.ofTable_fullOn _ _
  parentHere := rfl
  parentFull := State.ofTable_fullOn _ _
  valid := rfl
  top := drainedTop
  columns := by decide

theorem onInput_drainedBatch :
    drained.onInput drainedContainers drainedBatch .none .none drainedStates = .ok
      { results := [.negative [.value 0, .value 10], .negative [.value 0, .value 9],
          .positive [.value 0, .value 7], .positive [.value 0, .value 7]] } := by
  decide

/-- The heap is empty when the row 7 comes, so it is tracked although 8 is not;
the backfill then skips 8 and takes 7 again. -/
theorem drainedBatch_not_isTop :
    Update drained drainedStates (State.ofTable drainedOwn) (State.ofTable drainedAfter)
      drainedOwn drainedBefore drainedAfter drainedBatch ∧
    ¬ ∃ result replaced,
      drained.onInput drainedContainers drainedBatch .none .none drainedStates = .ok result ∧
      result.misses = [] ∧
      applyAll (drainedOwn : Multiset (Row Nat)) result.results = some replaced ∧
      ∀ key, IsTop drained.order.le drained.k (drained.group replaced key)
        (drained.group drainedAfter key) := by
  refine ⟨drainedUpdate, ?_⟩
  rintro ⟨result, replaced, ran, _, applied, tops⟩
  rw [onInput_drainedBatch] at ran
  obtain rfl := Except.ok.inj ran
  obtain rfl : ([[.value 0, .value 7], [.value 0, .value 7]] : List (Row Nat)) = replaced :=
    Option.some.inj (Eq.trans (by decide) applied)
  have sub := (tops [.value 0]).sub
  revert sub
  decide

theorem onInput_isTop_iff_drainedBatch :
    (∃ result replaced,
        drained.onInput drainedContainers drainedBatch .none .none drainedStates = .ok result ∧
        result.misses = [] ∧
        applyAll (drainedOwn : Multiset (Row Nat)) result.results = some replaced ∧
        ∀ key, IsTop drained.order.le drained.k (drained.group replaced key)
          (drained.group drainedAfter key)) ↔
      ∀ record ∈ drainedBatch,
        drained.GroupSettled drainedContainers
          (drained.group drainedOwn (record.value.clonedIndices drained.groupBy))
          (drained.groupRecords drainedBatch (record.value.clonedIndices drained.groupBy))
          ((State.ofTable drainedAfter).rowsFor drained.groupBy
            (record.value.clonedIndices drained.groupBy)) :=
  onInput_isTop_iff drainedContainers .none drainedUpdate

end TopK

end ReadySet.Ops
