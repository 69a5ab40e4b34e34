import ReadySet.Ops.Join.Updates

/-!
Owns what a left join emits for one join key of an update from a right parent
that is partially materialized. The count of right rows is then read off a weak
index, where a key without rows looks like a hole: `Ingredient::lookup` turns
both into a miss, and the operator skips the runs of the key.
-/

namespace ReadySet.Ops

open Data Library Dataflow

universe u

section

variable {V : Type u} [LinearOrder V] {join : JoinConfig} {nodes : DomainNodes V}
  {states : StateMap V} {before after : Tables V} {batch : List (Record V)} {key : Key V}

def JoinConfig.keyed (join : JoinConfig) (key : Key V) (tables : Tables V) : Tables V :=
  fun side => matching (tables side) (join.onSide side) key

/-- **A valid update of a partially materialized right parent of a left join.**
Lookups into the left parent may miss, but do not fail. -/
structure WeakUpdate (join : JoinConfig) (nodes : DomainNodes V) (states : StateMap V)
    (before after : Tables V) (batch : List (Record V)) : Prop where
  kind : join.kind = .left
  right : ∃ state, states join.right = some state ∧ state.isPartial = true
  left : ∀ key : Key V, key.length = join.on.length →
    ingredientLookup join.left join.onLeft key nodes states .weak = .ok .miss ∨
      ∃ rows, ingredientLookup join.left join.onLeft key nodes states .weak = .ok (.ofRows rows)
  valid : applyAll (before .right) batch = some (after .right)
  unchanged : after .left = before .left

/-- The right rows of a key are held in the weak index, and its left rows are
found. -/
structure Available (join : JoinConfig) (nodes : DomainNodes V) (states : StateMap V)
    (tables : Tables V) (key : Key V) : Prop where
  held : ∀ state, states join.right = some state →
    ((state.lookupWeak join.onRight key).getD [] : Multiset (Row V)) =
      matching (tables .right) join.onRight key
  left : ∃ rows,
    ingredientLookup join.left join.onLeft key nodes states .weak = .ok (.ofRows rows) ∧
      (rows : Multiset (Row V)) = matching (tables .left) join.onLeft key

/-- The change of padding that the runs of a key add up to. -/
def keyPresence (join : JoinConfig) (tables : Tables V) (batch : List (Record V)) (key : Key V) : ℤ :=
  ((runs (join.joinKey join.right) batch).map fun group =>
    if group.1 = key then
      presenceChange (rightCount join tables key) (JoinConfig.rowCountDiff group.2)
    else 0).sum

/-- **When the operator keeps up with a key.** If no right row is left, the left
join of the key has not changed; otherwise the key has no left rows that could be
padded, or its runs agree with the batch on how the padding changes. -/
def WeakSettled (join : JoinConfig) (before after : Tables V) (batch : List (Record V))
    (key : Key V) : Prop :=
  if rightCount join after key = 0 then
    join.joined (join.keyed key after) = join.joined (join.keyed key before)
  else
    keyMatches (after .left) join.onLeft key = 0 ∨
      keyPresence join after batch key = presenceChange (rightCount join after key)
        (JoinConfig.rowCountDiff
          (batch.filter fun record => join.joinKey join.right record = key))

/-! ## Lookups into the weak index -/

variable (update : WeakUpdate join nodes states before after batch)
include update

theorem WeakUpdate.lookup_right (key : Key V) :
    ∃ state, states join.right = some state ∧
      ingredientLookup join.right join.onRight key nodes states .weak =
        .ok (if (state.lookupWeak join.onRight key).getD [] = [] then .miss
          else .ofRows ((state.lookupWeak join.onRight key).getD [])) := by
  obtain ⟨state, here, isPartial⟩ := update.right
  refine ⟨state, here, ?_⟩
  unfold ingredientLookup
  rw [here]
  cases weak : state.lookupWeak join.onRight key with
  | none => simp [isPartial, weak]
  | some rows => cases rows <;> simp [isPartial, weak]

theorem WeakUpdate.found
    (available : Available join nodes states after key) (some : rightCount join after key ≠ 0) :
    Found join nodes states after key
  | .left => available.left
  | .right => by
      obtain ⟨state, here, looked⟩ := update.lookup_right key
      have held := available.held state here
      refine ⟨_, looked.trans (congrArg _ (if_neg ?_)), held⟩
      intro empty
      rw [empty] at held
      exact some (by rw [rightCount, ← held]; rfl)

/-- No run fails, and a key without right rows is skipped. -/
theorem WeakUpdate.exists_onRun
    {group : Key V × List (Record V)} (length : group.1.length = join.on.length) :
    ∃ result, join.onRun join.right .none none nodes states group = .ok result ∧
      (Available join nodes states after group.1 → rightCount join after group.1 = 0 →
        result = {}) := by
  obtain ⟨state, here, right⟩ := update.lookup_right group.1
  have left : ∃ answer, ingredientLookup join.left join.onLeft group.1 nodes states .weak =
      .ok (answerOf answer) := by
    rcases update.left group.1 length with left | ⟨rows, left⟩
    · exact ⟨none, left⟩
    · exact ⟨some rows, left⟩
  obtain ⟨answer, left⟩ := left
  obtain ⟨result, ran, spec⟩ := @onRun_spec V _ join nodes states .right group .none none
    (@Side.rec (fun _ => _) answer
      (if (state.lookupWeak join.onRight group.1).getD [] = [] then none
        else some ((state.lookupWeak join.onRight group.1).getD [])))
    length (by
      rintro (_ | _)
      · exact left
      · exact right.trans (by split_ifs <;> rfl))
  refine ⟨result, ran, fun available none => ?_⟩
  have empty : (state.lookupWeak join.onRight group.1).getD [] = [] := by
    rw [← Multiset.coe_eq_zero, available.held state here]
    exact Multiset.card_eq_zero.mp none
  simpa [update.kind, empty] using spec

omit update

/-! ## The runs of one key -/

theorem net_key_runs {part : Key V × List (Record V) → ProcessingResult V}
    (kind : join.kind = .left) (found : Found join nodes states after key)
    (ran : ∀ group ∈ runs (join.joinKey join.right) batch,
      join.onRun join.right .none none nodes states group = .ok (part group)) :
    net ((runs (join.joinKey join.right) batch).flatMap fun group =>
        if group.1 = key then (part group).results else []) =
      weight (join.rightCounts (after .left))
          (batch.filter fun record => join.joinKey join.right record = key) +
        keyPresence join after batch key •
          counts ((keyMatches (after .left) join.onLeft key).map join.generateNull) := by
  rw [net, weight_flatMap, filter_key_eq_flatMap_runs, weight_flatMap, keyPresence,
    List.sum_smul, List.map_map, ← List.sum_map_add]
  refine congrArg List.sum (List.map_congr_left fun group mem => ?_)
  by_cases here : group.1 = key
  · subst here
    have inRuns : group ∈ runs (join.joinKey (join.parent .right)) batch := mem
    obtain ⟨result, ranGroup, _, emitted⟩ := found.net_onRun (runs_length inRuns)
      fun record mem => runs_key_of_mem _ inRuns mem
    obtain rfl := Except.ok.inj ((ran group mem).symm.trans ranGroup)
    simpa [runCounts, kind, net] using emitted
  · simp [here]

theorem matching_keyed {tables : Tables V} {side : Side} :
    matching (join.keyed key tables side) (join.onSide side) key =
      matching (tables side) (join.onSide side) key :=
  Multiset.filter_eq_self.mpr fun _ mem => (Multiset.mem_filter.mp mem).2

/-- How the join of one key changes with a right batch. -/
theorem WeakUpdate.joined_sub (update : WeakUpdate join nodes states before after batch)
    (key : Key V) :
    counts (join.joined (join.keyed key after)) - counts (join.joined (join.keyed key before)) =
      weight (join.rightCounts (after .left))
          (batch.filter fun record => join.joinKey join.right record = key) +
        presenceChange (rightCount join after key) (JoinConfig.rowCountDiff
              (batch.filter fun record => join.joinKey join.right record = key)) •
          counts ((keyMatches (after .left) join.onLeft key).map join.generateNull) := by
  have onRight : join.fromKey join.right = join.onRight := join.fromKey_parent .right
  -- the rows of the key are tables of their own, changed by the records of the key
  let alone : StateMap V := fun node =>
    some (State.holding (join.keyed key after (if node = join.left then .left else .right)))
  have restricted : Update join alone (join.keyed key before) (join.keyed key after) .right
      (batch.filter fun record => join.joinKey join.right record = key) := by
    refine ⟨fun parentSide => ⟨_, ?_, State.holding_fullOn _ _⟩, ?_, ?_⟩
    · cases parentSide <;> simp [alone, JoinConfig.parent, join.parents_distinct.symm]
    · simp only [JoinConfig.joinKey, onRight]
      exact applyAll_filter (fun row => row.clonedIndices join.onRight = key) update.valid
    · simp [JoinConfig.keyed, otherSide, update.unchanged]
  rw [restricted.joined_sub_right update.kind]
  congr 1
  · refine weight_congr _ fun record mem => ?_
    have keyed : record.value.clonedIndices join.onRight = key := by
      simpa [JoinConfig.joinKey, onRight] using (List.mem_filter.mp mem).2
    have same : matching (join.keyed key after .left) join.onLeft key =
        matching (after .left) join.onLeft key := matching_keyed
    simp only [JoinConfig.rightCounts, JoinConfig.filter_matches_eq_keyMatches, keyed, keyMatches,
      same]
  · have count : rightCount join (join.keyed key after) key = rightCount join after key :=
      congrArg Multiset.card (matching_keyed)
    have whole : ∀ leftRow ∈ join.keyed key after .left, wholePresence join (join.keyed key after)
            (batch.filter fun record => join.joinKey join.right record = key) leftRow =
          if hasNull key then 0 else presenceChange (rightCount join after key)
            (JoinConfig.rowCountDiff
              (batch.filter fun record => join.joinKey join.right record = key)) := by
      intro leftRow mem
      have here : leftRow.clonedIndices join.onLeft = key := (Multiset.mem_filter.mp mem).2
      simp [wholePresence, here, count]
    rw [Multiset.map_congr rfl fun leftRow mem => by rw [whole leftRow mem], counts_map, keyMatches]
    by_cases nulls : hasNull key = true
    · simp [nulls]
    · simp only [nulls, Multiset.smul_sum, Multiset.map_map]
      rfl

/-- **The records emitted for a join key are the change of its left join exactly
when** the operator keeps up with the key. -/
theorem onInput_weak_iff {join : Join V}
    (update : WeakUpdate join.toJoinConfig nodes states before after batch)
    (available : Available join.toJoinConfig nodes states after key) :
    ∃ (result : ProcessingResult V) (part : Key V × List (Record V) → ProcessingResult V),
      join.onInput join.right batch .none nodes states = .ok (result, join) ∧
      (∀ group ∈ runs (join.joinKey join.right) batch,
        join.onRun join.right .none none nodes states group = .ok (part group)) ∧
      (result.results = (runs (join.joinKey join.right) batch).flatMap fun group =>
        (part group).results) ∧
      (net ((runs (join.joinKey join.right) batch).flatMap fun group =>
          if group.1 = key then (part group).results else []) =
          counts (join.joined (join.keyed key after)) -
            counts (join.joined (join.keyed key before)) ↔
        WeakSettled join.toJoinConfig before after batch key) := by
  have each : ∀ group ∈ runs (join.joinKey (join.parent .right)) batch, _ :=
    fun group member => update.exists_onRun (runs_length member)
  obtain ⟨part, result, received, parts, results, -⟩ := exists_onInput rfl each
  have ran := fun group member => (parts group member).1
  refine ⟨result, part, received, ran, results, ?_⟩
  rw [WeakSettled]
  split_ifs with none
  · have nothing : ((runs (join.joinKey join.right) batch).flatMap fun group =>
        if group.1 = key then (part group).results else []) = [] := by
      refine List.flatMap_eq_nil_iff.mpr fun group member => ?_
      split_ifs with here
      · subst here
        rw [(parts group member).2 available none]
      · rfl
    rw [nothing, net, weight_nil, eq_comm, sub_eq_zero, counts_injective.eq_iff]
  · rw [net_key_runs update.kind (update.found available none) ran, update.joined_sub key,
      add_right_inj, ← sub_eq_zero, ← sub_smul, smul_eq_zero, sub_eq_zero, or_comm]
    rw [← counts_zero, counts_injective.eq_iff, Multiset.map_eq_zero]

end

/-! ## The last right row of a key -/

/-- A right parent without right rows left, and a left row of key 1. -/
def lastStates : StateMap Nat
  | 0 => some (State.ofTable splitLeft)
  | 1 => some { isPartial := true, lookup := fun _ _ => .missing, lookupWeak := fun _ _ => none }
  | _ => none

def lastBefore : Tables Nat
  | .left => splitLeft
  | .right => {[.value 1, .value 5]}

theorem lastUpdate : WeakUpdate splitJoin.toJoinConfig .none lastStates lastBefore splitBefore
    [.negative [.value 1, .value 5]] where
  kind := rfl
  right := ⟨_, rfl, rfl⟩
  left _ _ := .inr ⟨_, rfl⟩
  valid := rfl
  unchanged := rfl

theorem lastAvailable :
    Available splitJoin.toJoinConfig .none lastStates splitBefore [.value 1] where
  held := by
    rintro state ⟨⟩
    rfl
  left := ⟨_, rfl, rfl⟩

/-- The right row of key 1 is deleted, and neither is the joined row revoked nor
the padded one emitted. -/
theorem lastRow_dropped :
    WeakUpdate splitJoin.toJoinConfig .none lastStates lastBefore splitBefore
        [.negative [.value 1, .value 5]] ∧
      Available splitJoin.toJoinConfig .none lastStates splitBefore [.value 1] ∧
      splitJoin.onInput splitJoin.right [.negative [.value 1, .value 5]] .none .none lastStates =
        .ok ({}, splitJoin) ∧
      splitJoin.joined (splitJoin.keyed [.value 1] lastBefore) =
        {[.value 1, .value 10, .value 5]} ∧
      splitJoin.joined (splitJoin.keyed [.value 1] splitBefore) =
        {[.value 1, .value 10, .none]} :=
  ⟨lastUpdate, lastAvailable, rfl, by decide, by decide⟩

theorem onInput_weak_iff_lastRow :
    ∃ (result : ProcessingResult Nat) (part : Key Nat × List (Record Nat) → ProcessingResult Nat),
      splitJoin.onInput splitJoin.right [.negative [.value 1, .value 5]] .none .none lastStates =
        .ok (result, splitJoin) ∧
      (net ((runs (splitJoin.joinKey splitJoin.right) [.negative [.value 1, .value 5]]).flatMap
          fun group => if group.1 = [.value 1] then (part group).results else []) =
          counts (splitJoin.joined (splitJoin.keyed [.value 1] splitBefore)) -
            counts (splitJoin.joined (splitJoin.keyed [.value 1] lastBefore)) ↔
        WeakSettled splitJoin.toJoinConfig lastBefore splitBefore
          [.negative [.value 1, .value 5]] [.value 1]) := by
  obtain ⟨result, part, received, _, _, iff⟩ := onInput_weak_iff lastUpdate lastAvailable
  exact ⟨result, part, received, iff⟩

end ReadySet.Ops
