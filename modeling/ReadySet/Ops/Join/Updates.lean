import ReadySet.Ops.Join.Semantics

/-!
Owns what a join emits for an ordinary update batch from one parent, against
the change of the join's contents.

A batch from the left parent, or into an inner join, emits exactly the change.
A batch from the right parent of a left join also has to emit or revoke padded
rows, and the operator decides that run by run: it compares the count of right
rows after the whole batch with the change made by one run. `PaddingSettled` is
the condition under which the runs agree with the batch as a whole.
-/

namespace ReadySet.Ops

open Data Library Dataflow JoinConfig Multiset

universe u

namespace JoinConfig

variable {V : Type u} (join : JoinConfig)

def parent : Side → LocalNodeIndex
  | .left => join.left
  | .right => join.right

/-- The key columns of the parent on a side. -/
def onSide : Side → List Nat
  | .left => join.onLeft
  | .right => join.onRight

@[simp] theorem fromLeft_parent_left : join.fromLeft (join.parent .left) = true := by
  simp [fromLeft, parent]

@[simp] theorem fromLeft_parent_right : join.fromLeft (join.parent .right) = false := by
  simp [fromLeft, parent, join.parents_distinct.symm]

section

variable (side : Side)

@[simp] theorem other_parent : join.other (join.parent side) = join.parent (otherSide side) := by
  cases side <;> simp [other, otherSide, parent, fromLeft, join.parents_distinct.symm]

@[simp] theorem fromKey_parent : join.fromKey (join.parent side) = join.onSide side := by
  cases side <;> simp [fromKey, onSide]

@[simp] theorem otherKey_parent :
    join.otherKey (join.parent side) = join.onSide (otherSide side) := by
  cases side <;> simp [otherKey, onSide, otherSide]

@[simp] theorem length_onSide : (join.onSide side).length = join.on.length := by
  cases side <;> simp [onSide, onLeft, onRight]

end

end JoinConfig

open IngredientLookupResult (ofRows)

section

variable {V : Type u} [LinearOrder V] {join : JoinConfig} {nodes : DomainNodes V}
  {states : StateMap V} {before after : Tables V} {side : Side} {batch : List (Record V)}

/-- **A valid update from one parent, both parents fully materialized.** The
lookups see the sending parent after the batch. -/
structure Update (join : JoinConfig) (states : StateMap V) (before after : Tables V) (side : Side)
    (batch : List (Record V)) : Prop where
  materialized : ∀ parentSide, ∃ state, states (join.parent parentSide) = some state ∧
    FullOn state (join.onSide parentSide) (after parentSide)
  valid : applyAll (before side) batch = some (after side)
  unchanged : after (otherSide side) = before (otherSide side)

/-! ## One run -/

/-- The right-hand row count that a key has after the batch. -/
def rightCount (join : JoinConfig) (tables : Tables V) (key : Key V) : Nat :=
  (matching (tables .right) join.onRight key).card

/-- The padded rows the operator emits or revokes for one run. -/
def runPadding (join : JoinConfig) (tables : Tables V) (side : Side)
    (group : Key V × List (Record V)) (otherRows : List (Row V)) : List (Record V) :=
  if join.kind = .left ∧ side = .right then
    join.nullRows (rightCount join tables group.1) (JoinConfig.rowCountDiff group.2) otherRows
  else []

/-- Lookups by a key find the rows that the parents have of it. -/
def Found (join : JoinConfig) (nodes : DomainNodes V) (states : StateMap V) (tables : Tables V)
    (key : Key V) : Prop :=
  ∀ parentSide, ∃ rows,
    ingredientLookup (join.parent parentSide) (join.onSide parentSide) key nodes states .weak =
        .ok (.ofRows rows) ∧
      (rows : Multiset (Row V)) = matching (tables parentSide) (join.onSide parentSide) key

theorem Update.found (update : Update join states before after side batch)
    (nodes : DomainNodes V) {key : Key V} (length : key.length = join.on.length) :
    Found join nodes states after key := by
  intro parentSide
  obtain ⟨state, here, full⟩ := update.materialized parentSide
  exact full.ingredientLookup here (by rw [length, length_onSide]) .weak

variable {tables : Tables V}
  {group : Key V × List (Record V)} {replay : ReplayContext V} {cols : Option (List Nat)}

/-- What a lookup finds, or a miss. -/
def answerOf : Option (List (Row V)) → IngredientLookupResult V
  | some rows => .ofRows rows
  | none => .miss

/-- What a run comes to, given what the lookups of its key find. -/
theorem onRun_spec
    {answers : Side → Option (List (Row V))} (length : group.1.length = join.on.length)
    (looked : ∀ from_, ingredientLookup (join.parent from_) (join.onSide from_) group.1 nodes states
      (if cols.isSome then .strict else .weak) = .ok (answerOf (answers from_))) :
    ∃ result, join.onRun (join.parent side) replay cols nodes states group = .ok result ∧
      if (join.kind = .left ∧ side = .right) ∧ answers .right = none then result = {}
      else match if hasNull group.1 then some [] else answers (otherSide side) with
        | none => result.results = [] ∧ result.misses = group.2.map fun record =>
            Miss.build (join.parent (otherSide side)) (join.onSide (otherSide side))
              (.recordColumns (join.onSide side)) replay cols record.value
        | some others => result.misses = [] ∧
            result.results = group.2.flatMap (join.joinRecord (join.parent side) others) ++
              if join.kind = .left ∧ side = .right then
                join.nullRows ((answers .right).getD []).length (rowCountDiff group.2) others
              else [] := by
  obtain ⟨key, run⟩ := group
  have equalKey : equalKey key = .ok (.equal key) := by
    refine if_neg ?_
    rintro rfl
    exact join.on_nonempty (List.length_eq_zero_iff.mp length.symm)
  have count : ∃ counting, join.newRightCount (join.parent side) cols.isSome key nodes states =
      .ok (if join.kind = .left ∧ side = .right then
        (answers .right).map fun rows => (some rows.length, counting) else some (none, counting)) := by
    by_cases counts : join.kind = .left ∧ side = .right
    · obtain ⟨kind, rfl⟩ := counts
      simp only [newRightCount, kind, fromLeft_parent_right, and_self, if_true]
      rw [show ingredientLookup join.right join.onRight key nodes states _ = _ from looked .right]
      cases answers .right with
      | none => exact ⟨[], rfl⟩
      | some rows =>
        split_ifs <;> simp [answerOf, ofRows, *]
    · exact ⟨[], by cases side <;> simp_all [newRightCount]⟩
  obtain ⟨counting, count⟩ := count
  simp only [onRun, count, other_parent, otherKey_parent, looked (otherSide side), equalKey]
  by_cases counts : join.kind = .left ∧ side = .right
  · cases answers .right with
    | none => exact ⟨{}, by simp [counts]⟩
    | some rows =>
      cases hasNull key <;> cases answers (otherSide side) <;> cases cols <;>
      simp [counts, answerOf, ofRows, collectRows]
  · cases hasNull key <;> cases answers (otherSide side) <;> cases cols <;>
      simp [counts, answerOf, ofRows, collectRows]

/-- What one run contributes: every record joined with the other side's rows
of its key, then the padding. -/
theorem Found.onRun (found : Found join nodes states tables group.1)
    (length : group.1.length = join.on.length) (side : Side) :
    ∃ (otherRows : List (Row V)) (result : ProcessingResult V), (otherRows : Multiset (Row V)) =
        keyMatches (tables (otherSide side)) (join.onSide (otherSide side)) group.1 ∧
      join.onRun (join.parent side) .none none nodes states group = .ok result ∧
      result.misses = [] ∧
      result.results = group.2.flatMap (join.joinRecord (join.parent side) otherRows) ++
        runPadding join tables side group otherRows := by
  choose rows looked contents using found
  obtain ⟨result, ran, spec⟩ := @onRun_spec V _ join nodes states side group .none none
    (fun from_ => some (rows from_)) length looked
  have count : (rows .right).length = rightCount join tables group.1 := by
    rw [← coe_card, contents]
    rfl
  refine ⟨if hasNull group.1 then [] else rows (otherSide side), result, ?_, ran, ?_⟩
  · cases nulls : hasNull group.1 <;> simp [keyMatches, nulls, contents]
  · rw [← apply_ite some] at spec
    simpa [runPadding, count] using spec

/-! ## Weights of one run -/

section

variable {otherRows : List (Row V)} {record : Record V}

theorem net_joinRecord_left {right : Multiset (Row V)}
    (found : (otherRows : Multiset (Row V)) = join.partners right record.value) :
    net (join.joinRecord (join.parent .left) otherRows record) =
      record.sign • join.leftCounts right record.value := by
  unfold leftCounts joinRecord
  rw [← found, fromLeft_parent_left]
  cases otherRows with
  | nil =>
    by_cases kind : join.kind = .left <;> simp [kind, net]
  | cons row rows =>
    have some_partner :
        ¬ (join.kind = .left ∧ ((row :: rows : List (Row V)) : Multiset (Row V)) = 0) :=
      fun none => by simpa using none.2
    rw [if_neg some_partner, add_zero, Signed.sign_eq_ite, map_coe, ← net_ofFlag, List.map_map]
    rfl

theorem net_joinRecord_right {left : Multiset (Row V)} (found : (otherRows : Multiset (Row V)) =
      left.filter fun leftRow => join.Matches leftRow record.value) :
    net (join.joinRecord (join.parent .right) otherRows record) =
      record.sign • join.rightCounts left record.value := by
  unfold rightCounts joinRecord
  rw [← found, fromLeft_parent_right]
  cases otherRows with
  | nil => simp [net]
  | cons row rows =>
    rw [Signed.sign_eq_ite, map_coe, ← net_ofFlag, List.map_map]
    rfl

end

/-- How a change of the right-hand row count by `diff` to `newCount` changes
whether a left row is padded. -/
def presenceChange (newCount : Nat) (diff : ℤ) : ℤ :=
  if newCount = 0 then (if diff = 0 then 0 else 1)
  else if diff = newCount then -1 else 0

/-- Padded rows come and go with the first and the last partner. -/
theorem net_nullRows (newCount : Nat) (diff : ℤ) (otherRows : List (Row V)) :
    net (join.nullRows newCount diff otherRows) =
      presenceChange newCount diff •
        counts ((otherRows : Multiset (Row V)).map join.generateNull) := by
  have signed : ∀ flag : Bool,
      net (otherRows.map fun other => Signed.ofFlag (join.generateNull other) flag) =
        (if flag then 1 else -1 : ℤ) •
          counts ((otherRows : Multiset (Row V)).map join.generateNull) := by
    intro flag
    rw [map_coe, ← net_ofFlag, List.map_map]
    rfl
  unfold nullRows presenceChange
  by_cases empty : newCount = 0
  · by_cases same : diff = 0
    · simp [empty, same, net]
    · simp [empty, same, signed]
  · by_cases appeared : diff = newCount
    · simp [empty, appeared, signed]
    · have stayed : (newCount : ℤ) - diff ≠ 0 := by omega
      simp [empty, appeared, stayed, net]

def runCounts (join : JoinConfig) (tables : Tables V) (side : Side)
    (group : Key V × List (Record V)) : Row V → ℤ :=
  match side with
  | .left => weight (join.leftCounts (tables .right)) group.2
  | .right =>
    weight (join.rightCounts (tables .left)) group.2 +
      if join.kind = .left then
        presenceChange (rightCount join tables group.1) (JoinConfig.rowCountDiff group.2) •
          counts ((keyMatches (tables .left) join.onLeft group.1).map join.generateNull)
      else 0

/-- One run emits the joined rows and the padding that its own counts ask for. -/
theorem Found.net_onRun
    (found : Found join nodes states tables group.1) (length : group.1.length = join.on.length)
    (keyed : ∀ record ∈ group.2, join.joinKey (join.parent side) record = group.1) :
    ∃ result, join.onRun (join.parent side) .none none nodes states group = .ok result ∧
      result.misses = [] ∧ net result.results = runCounts join tables side group := by
  obtain ⟨otherRows, result, looked, ran, misses, results⟩ := found.onRun length side
  refine ⟨result, ran, misses, ?_⟩
  have split : net (group.2.flatMap (join.joinRecord (join.parent side) otherRows) ++
        runPadding join tables side group otherRows) =
      (group.2.map fun record =>
        net (join.joinRecord (join.parent side) otherRows record)).sum +
      net (runPadding join tables side group otherRows) := by
    simp [net, weight_flatMap]
  rw [results, split]
  cases side with
  | left =>
    have records : ∀ record ∈ group.2, net (join.joinRecord (join.parent .left) otherRows record) =
          record.sign • join.leftCounts (tables .right) record.value := by
      intro record mem
      refine net_joinRecord_left ?_
      rw [looked, partners_eq_keyMatches, ← keyed record mem]
      simp [joinKey, otherSide, onSide]
    rw [List.map_congr_left records]
    simp [runCounts, weight, runPadding, net]
  | right =>
    have records : ∀ record ∈ group.2, net (join.joinRecord (join.parent .right) otherRows record) =
          record.sign • join.rightCounts (tables .left) record.value := by
      intro record mem
      refine net_joinRecord_right ?_
      rw [looked, filter_matches_eq_keyMatches, ← keyed record mem]
      simp [joinKey, otherSide, onSide]
    rw [List.map_congr_left records]
    by_cases kind : join.kind = .left
    · simp only [runPadding, kind, and_self, if_true, runCounts, net_nullRows, looked]
      rfl
    · simp [runPadding, kind, runCounts, weight, net]

/-! ## The whole batch -/

theorem runs_length (mem : group ∈ runs (join.joinKey (join.parent side)) batch) :
    group.1.length = join.on.length := by
  obtain ⟨nonempty, keyed⟩ := runs_spec _ _ mem
  obtain ⟨record, present⟩ := List.exists_mem_of_ne_nil _ nonempty
  rw [← keyed record present]
  simp [joinKey]

/-- `on_input` handles the runs one after the other. -/
theorem exists_onInput {join : Join V} {sender : LocalNodeIndex}
    {spec : Key V × List (Record V) → ProcessingResult V → Prop}
    (resolved : join.replayKeyCols sender replay = some cols)
    (ran : ∀ group ∈ runs (join.joinKey sender) batch, ∃ result,
      join.onRun sender replay cols nodes states group = .ok result ∧ spec group result) :
    ∃ (part : Key V × List (Record V) → ProcessingResult V) (result : ProcessingResult V),
      join.onInput sender batch replay nodes states = .ok (result, join) ∧
      (∀ group ∈ runs (join.joinKey sender) batch,
        join.onRun sender replay cols nodes states group = .ok (part group) ∧
          spec group (part group)) ∧
      (result.results = (runs (join.joinKey sender) batch).flatMap fun group =>
        (part group).results) ∧
      result.misses = (runs (join.joinKey sender) batch).flatMap fun group =>
        (part group).misses := by
  have : Nonempty (ProcessingResult V) := ⟨{}⟩
  choose! part ran using ran
  have all (groups : List (Key V × List (Record V))) (within : ∀ group ∈ groups,
      join.onRun sender replay cols nodes states group = .ok (part group)) :
      ∃ result, join.onRuns sender replay cols nodes states groups = .ok result ∧
        (result.results = groups.flatMap fun group => (part group).results) ∧
        result.misses = groups.flatMap fun group => (part group).misses := by
    induction groups with
    | nil => exact ⟨{}, rfl, rfl, rfl⟩
    | cons group groups ih =>
      obtain ⟨later, ranLater, results, misses⟩ := ih fun other mem =>
        within other (List.mem_cons_of_mem _ mem)
      refine ⟨part group ++ later, ?_, by simp [results], by simp [misses]⟩
      simp [onRuns, within group List.mem_cons_self, ranLater]
  by_cases empty : batch = []
  · refine ⟨part, {}, ?_, ran, by simp [empty, runs], by simp [empty, runs]⟩
    simp [Join.onInput, resolved, empty]
  · obtain ⟨result, ranAll, results, misses⟩ := all _ fun group mem => (ran group mem).1
    refine ⟨part, result, ?_, ran, results, misses⟩
    simp [Join.onInput, resolved, empty, ranAll]

/-- **`on_input` of an update batch succeeds without a miss**, and emits the
sum of what its runs contribute. -/
theorem Update.net_onInput {join : Join V}
    (update : Update join.toJoinConfig states before after side batch) (nodes : DomainNodes V) :
    ∃ result, join.onInput (join.parent side) batch .none nodes states = .ok (result, join) ∧
      result.misses = [] ∧
      net result.results =
        ((runs (join.joinKey (join.parent side)) batch).map
          (runCounts join.toJoinConfig after side)).sum := by
  obtain ⟨part, result, received, parts, results, misses⟩ := exists_onInput rfl fun group mem =>
    (update.found nodes (runs_length mem)).net_onRun (runs_length mem)
      fun record present => runs_key_of_mem _ mem present
  refine ⟨result, received, ?_, ?_⟩
  · rw [misses, List.flatMap_eq_nil_iff]
    exact fun group mem => (parts group mem).2.1
  · rw [results, net, weight_flatMap]
    exact congrArg List.sum (List.map_congr_left fun group mem => (parts group mem).2.2)

theorem weight_runs {G : Type*} [AddCommGroup G] (f : Row V → G) (key : Record V → Key V) :
    ((runs key batch).map fun group => weight f group.2).sum = weight f batch := by
  conv_rhs => rw [← runs_flatten key batch]
  rw [weight_flatten, List.map_map]
  rfl

/-- The change of padding that the runs of a left row's key add up to. -/
def runwisePresence (join : JoinConfig) (tables : Tables V) (batch : List (Record V))
    (leftRow : Row V) : ℤ :=
  let key := leftRow.clonedIndices join.onLeft
  if hasNull key then 0
  else
    ((runs (join.joinKey join.right) batch).map fun group =>
      if group.1 = key then
        presenceChange (rightCount join tables key) (JoinConfig.rowCountDiff group.2)
      else 0).sum

/-- The change of padding that all records of a left row's key amount to. -/
def wholePresence (join : JoinConfig) (tables : Tables V) (batch : List (Record V))
    (leftRow : Row V) : ℤ :=
  let key := leftRow.clonedIndices join.onLeft
  if hasNull key then 0
  else
    presenceChange (rightCount join tables key)
      (JoinConfig.rowCountDiff (batch.filter fun record => join.joinKey join.right record = key))

/-- **The runs agree with the batch.** Over the left rows that are padded to
one and the same row, the changes of padding read off run by run add up to
the changes read off the whole batch. -/
def PaddingSettled (join : JoinConfig) (tables : Tables V) (batch : List (Record V)) : Prop :=
  ∀ padded : Row V,
    (((tables .left).filter fun leftRow => join.generateNull leftRow = padded).map
      (runwisePresence join tables batch)).sum =
    (((tables .left).filter fun leftRow => join.generateNull leftRow = padded).map
      (wholePresence join tables batch)).sum

theorem keyMatches_eq_filter (table : Multiset (Row V)) (cols : List Nat) (key : Key V) :
    keyMatches table cols key =
      table.filter fun row => row.clonedIndices cols = key ∧ hasNull key = false := by
  unfold keyMatches matching
  by_cases nulls : hasNull key = true
  · rw [if_pos nulls]
    exact (filter_eq_nil.mpr fun row _ both => by simp [nulls] at both).symm
  · rw [if_neg nulls]
    exact filter_congr fun row _ => by simp [nulls]

/-- The padding of all runs, summed by left rows instead. -/
theorem sum_runs_padding :
    ((runs (join.joinKey join.right) batch).map fun group =>
      presenceChange (rightCount join tables group.1) (rowCountDiff group.2) •
        counts ((keyMatches (tables .left) join.onLeft group.1).map join.generateNull)).sum =
    ((tables .left).map fun leftRow =>
      runwisePresence join tables batch leftRow • unit (join.generateNull leftRow)).sum := by
  -- what one run changes about the padding of one row of the left table
  let change (group : Key V × List (Record V)) (leftRow : Row V) :=
    if leftRow.clonedIndices join.onLeft = group.1 ∧ hasNull group.1 = false then
      presenceChange (rightCount join tables group.1) (rowCountDiff group.2) •
        unit (join.generateNull leftRow)
    else 0
  have perRun : ∀ group : Key V × List (Record V),
      presenceChange (rightCount join tables group.1) (rowCountDiff group.2) •
          counts ((keyMatches (tables .left) join.onLeft group.1).map join.generateNull) =
        ((tables .left).map (change group)).sum := by
    intro group
    rw [keyMatches_eq_filter, counts_map, sum_map_filter, smul_sum, map_map]
    simp [change]
  have perRow : ∀ leftRow : Row V,
      runwisePresence join tables batch leftRow • unit (join.generateNull leftRow) =
        ((runs (join.joinKey join.right) batch : Multiset (Key V × List (Record V))).map
          fun group => change group leftRow).sum := by
    intro leftRow
    rw [runwisePresence]
    by_cases nulls : hasNull (leftRow.clonedIndices join.onLeft) = true
    · rw [if_pos nulls, zero_smul]
      refine (List.sum_eq_zero ?_).symm
      simp only [List.mem_map]
      rintro _ ⟨group, _, rfl⟩
      refine if_neg ?_
      rintro ⟨same, noNull⟩
      rw [← same, nulls] at noNull
      contradiction
    · rw [if_neg nulls, List.sum_smul, List.map_map]
      refine congrArg List.sum (List.map_congr_left fun group _ => ?_)
      by_cases same : leftRow.clonedIndices join.onLeft = group.1
      · simp [change, same, same ▸ nulls]
      · simp [change, same, Ne.symm same]
  simp only [perRun, perRow]
  rw [← sum_coe, ← map_coe]
  exact sum_map_sum_map _ _

omit [LinearOrder V] in
theorem rowCountDiff_filter (keep : Row V → Bool) (batch : List (Record V)) :
    rowCountDiff (batch.filter fun record => keep record.value) =
      weight (fun row => if keep row then (1 : ℤ) else 0) batch := by
  rw [← weight_filter]
  refine congrArg List.sum (List.map_congr_left fun record _ => ?_)
  rw [Signed.sign_eq_ite, smul_eq_mul, mul_one]

theorem Update.rightCount_eq (update : Update join states before after .right batch) (key : Key V) :
    (rightCount join after key : ℤ) = rightCount join before key + rowCountDiff
        (batch.filter fun record => join.joinKey join.right record = key) := by
  have card : ∀ table : Multiset (Row V), ((matching table join.onRight key).card : ℤ) =
      (table.map fun row =>
        if row.clonedIndices join.onRight = key then (1 : ℤ) else 0).sum := by
    intro table
    rw [← sum_map_filter]
    simp [matching]
  have moved := rowCountDiff_filter (fun row => row.clonedIndices join.onRight = key) batch
  have key_right : ∀ record : Record V,
      join.joinKey join.right record = record.value.clonedIndices join.onRight := by
    intro record
    exact congrArg (Row.clonedIndices record.value) (join.fromKey_parent .right)
  simp only [rightCount, key_right, card]
  simp only [decide_eq_true_eq] at moved
  rw [moved]
  exact total_applyAll _ update.valid

theorem partners_eq_zero_iff (right : Tables V) (leftRow : Row V) :
    join.partners (right .right) leftRow = 0 ↔
      hasNull (leftRow.clonedIndices join.onLeft) = true ∨
        rightCount join right (leftRow.clonedIndices join.onLeft) = 0 := by
  rw [partners_eq_keyMatches, keyMatches, rightCount]
  by_cases nulls : hasNull (leftRow.clonedIndices join.onLeft) = true <;> simp [nulls]

/-- How the padding of the join changes with a right batch. -/
theorem Update.padCounts_sub (update : Update join states before after .right batch)
    (leftRow : Row V) :
    join.padCounts (after .right) leftRow - join.padCounts (before .right) leftRow =
      wholePresence join after batch leftRow • unit (join.generateNull leftRow) := by
  have moved := update.rightCount_eq (leftRow.clonedIndices join.onLeft)
  simp only [padCounts, partners_eq_zero_iff, wholePresence, presenceChange]
  by_cases nulls : hasNull (leftRow.clonedIndices join.onLeft) = true
  · simp [nulls]
  · generalize rightCount join after (leftRow.clonedIndices join.onLeft) = newCount at moved ⊢
    generalize rightCount join before (leftRow.clonedIndices join.onLeft) = oldCount at moved ⊢
    generalize rowCountDiff _ = diff at moved ⊢
    by_cases newEmpty : newCount = 0
    · by_cases oldEmpty : oldCount = 0
      · have same : diff = 0 := by omega
        simp [newEmpty, oldEmpty, same]
      · have differ : diff ≠ 0 := by omega
        simp [nulls, newEmpty, oldEmpty, differ]
    · by_cases oldEmpty : oldCount = 0
      · have appeared : diff = newCount := by omega
        simp [nulls, newEmpty, oldEmpty, appeared]
      · have stayed : diff ≠ newCount := by omega
        simp [newEmpty, oldEmpty, stayed]

/-! ## The change of the join's contents -/

theorem Update.joined_sub_left (update : Update join states before after .left batch) :
    counts (join.joined after) - counts (join.joined before) =
      weight (join.leftCounts (after .right)) batch := by
  have same : after .right = before .right := update.unchanged
  rw [join.counts_joined_left, join.counts_joined_left, total_applyAll _ update.valid, same]
  abel

variable (update : Update join states before after .right batch)
include update

theorem Update.equiJoin_sub_right :
    counts (join.equiJoin after) - counts (join.equiJoin before) =
      weight (join.rightCounts (after .left)) batch := by
  have same : after .left = before .left := update.unchanged
  rw [join.counts_equiJoin_right, join.counts_equiJoin_right, total_applyAll _ update.valid, same]
  abel

theorem Update.padding_sub_right :
    counts (join.padding after) - counts (join.padding before) = ((after .left).map fun leftRow =>
        wholePresence join after batch leftRow • unit (join.generateNull leftRow)).sum := by
  have same : after .left = before .left := update.unchanged
  rw [join.counts_padding, join.counts_padding, ← same, ← sum_map_sub]
  refine congrArg sum (map_congr rfl fun leftRow _ => ?_)
  exact update.padCounts_sub leftRow

theorem Update.joined_sub_right (kind : join.kind = .left) :
    counts (join.joined after) - counts (join.joined before) =
      weight (join.rightCounts (after .left)) batch + ((after .left).map fun leftRow =>
          wholePresence join after batch leftRow • unit (join.generateNull leftRow)).sum := by
  rw [← update.equiJoin_sub_right, ← update.padding_sub_right]
  simp only [joined, kind, counts_add]
  abel

omit update

theorem sum_smul_generateNull_eq_iff (left : Multiset (Row V)) (f g : Row V → ℤ) :
    (left.map fun leftRow => f leftRow • unit (join.generateNull leftRow)).sum =
        (left.map fun leftRow => g leftRow • unit (join.generateNull leftRow)).sum ↔
      ∀ padded : Row V,
        ((left.filter fun leftRow => join.generateNull leftRow = padded).map f).sum =
          ((left.filter fun leftRow => join.generateNull leftRow = padded).map g).sum := by
  have at_padded : ∀ (h : Row V → ℤ) (padded : Row V),
      (left.map fun leftRow => h leftRow • unit (join.generateNull leftRow)).sum padded =
        ((left.filter fun leftRow => join.generateNull leftRow = padded).map h).sum := by
    intro h padded
    rw [sum_map_filter]
    induction left using Multiset.induction_on with
    | empty => rfl
    | cons leftRow left ih =>
      rw [map_cons, sum_cons, Pi.add_apply, ih, Pi.smul_apply, unit_apply]
      by_cases here : join.generateNull leftRow = padded
      · simp [here]
      · simp [here, Ne.symm here]
  rw [funext_iff]
  simp only [at_padded]

/-- What `on_input` emits, against the change of the join's contents. -/
theorem Update.net_runs (update : Update join states before after side batch) :
    ((runs (join.joinKey (join.parent side)) batch).map (runCounts join after side)).sum =
        counts (join.joined after) - counts (join.joined before) ↔
      join.kind = .inner ∨ side = .left ∨ PaddingSettled join after batch := by
  cases side with
  | left =>
    have emitted : ((runs (join.joinKey (join.parent .left)) batch).map
        (runCounts join after .left)).sum = weight (join.leftCounts (after .right)) batch :=
      weight_runs _ _
    rw [emitted, update.joined_sub_left]
    simp
  | right =>
    cases kind : join.kind with
    | inner =>
      have emitted : ((runs (join.joinKey (join.parent .right)) batch).map
          (runCounts join after .right)).sum = weight (join.rightCounts (after .left)) batch := by
        have perRun : runCounts join after .right = fun group =>
            weight (join.rightCounts (after .left)) group.2 := by
          funext group
          simp [runCounts, kind]
        rw [perRun]
        exact weight_runs _ _
      rw [emitted]
      simpa [joined, kind] using update.equiJoin_sub_right.symm
    | left =>
      have emitted : ((runs (join.joinKey (join.parent .right)) batch).map
          (runCounts join after .right)).sum =
            weight (join.rightCounts (after .left)) batch + ((after .left).map fun leftRow =>
                runwisePresence join after batch leftRow •
                  unit (join.generateNull leftRow)).sum := by
        have perRun : runCounts join after .right = fun group =>
            weight (join.rightCounts (after .left)) group.2 +
              presenceChange (rightCount join after group.1) (rowCountDiff group.2) •
                counts ((keyMatches (after .left) join.onLeft group.1).map join.generateNull) := by
          funext group
          simp [runCounts, kind]
        rw [perRun, List.sum_map_add, weight_runs]
        exact congrArg _ (sum_runs_padding)
      rw [emitted, update.joined_sub_right kind, add_right_inj, sum_smul_generateNull_eq_iff]
      simp [PaddingSettled]

/-- **An update batch through a join emits the change of the join's contents
exactly when** the join is inner, the batch comes from the left parent, or the
changes of padding read off run by run agree with those of the batch. -/
theorem onInput_eq_joined_sub_iff {join : Join V}
    (update : Update join.toJoinConfig states before after side batch) (nodes : DomainNodes V) :
    (∃ result, join.onInput (join.parent side) batch .none nodes states = .ok (result, join) ∧
        result.misses = [] ∧
        net result.results = counts (join.joined after) - counts (join.joined before)) ↔
      join.kind = .inner ∨ side = .left ∨ PaddingSettled join.toJoinConfig after batch := by
  obtain ⟨result, ran, misses, emitted⟩ := update.net_onInput nodes
  rw [← update.net_runs, ← emitted]
  constructor
  · rintro ⟨other, ranOther, _, delta⟩
    rw [ran] at ranOther
    obtain rfl : result = other := by injection ranOther with same; exact congrArg Prod.fst same
    exact delta
  · intro delta
    exact ⟨result, ran, misses, delta⟩

/-- **A run of batches from both parents, in any order.** If the join is inner, or
each right batch is settled, the records emitted so far always add up to the
change of the join's contents. -/
theorem run_eq_joined_sub {join : Join V} {tables : ℕ → Tables V} {states : ℕ → StateMap V}
    {side : ℕ → Side} {batch : ℕ → List (Record V)}
    (update : ∀ n, Update join.toJoinConfig (states n) (tables n) (tables (n + 1)) (side n)
      (batch n)) (settled : ∀ n, join.kind = .inner ∨ side n = .left ∨
      PaddingSettled join.toJoinConfig (tables (n + 1)) (batch n)) (nodes : DomainNodes V) :
    ∃ result : ℕ → ProcessingResult V,
      (∀ n, join.onInput (join.parent (side n)) (batch n) .none nodes (states n) =
        .ok (result n, join) ∧ (result n).misses = []) ∧
      ∀ n, net ((List.range n).flatMap fun step => (result step).results) =
        counts (join.joined (tables n)) - counts (join.joined (tables 0)) := by
  choose result ran misses emitted using fun n => (update n).net_onInput nodes
  refine ⟨result, fun n => ⟨ran n, misses n⟩, fun n => ?_⟩
  induction n with
  | zero => simp [net]
  | succ n ih =>
    have delta := (emitted n).trans ((update n).net_runs.mpr (settled n))
    rw [net] at ih delta ⊢
    rw [List.range_succ, List.flatMap_append, List.flatMap_singleton, weight_append, ih, delta]
    abel

end

/-! ## A key split over two runs -/

/-- `left.a, left.b, right.b` of a left join on the first columns. -/
def splitJoin : Join Nat where
  toJoinConfig := (JoinConfig.new 0 1 .left [.both 0 0, .fromLeft 1, .fromRight 1]
    (by decide)).get rfl
  generatedColumnBuffer := fun _ => none

def splitLeft : List (Row Nat) := [[.value 1, .value 10]]

def splitRight : List (Row Nat) :=
  [[.value 1, .value 7], [.value 2, .value 6], [.value 1, .value 5]]

def splitBefore : Tables Nat
  | .left => splitLeft
  | .right => 0

def splitAfter : Tables Nat
  | .left => splitLeft
  | .right => splitRight

/-- The records of key 1 are not consecutive. -/
def splitBatch : List (Record Nat) :=
  [.positive [.value 1, .value 5], .positive [.value 2, .value 6],
    .positive [.value 1, .value 7]]

def splitStates : StateMap Nat
  | 0 => some (State.ofTable splitLeft)
  | 1 => some (State.ofTable splitRight)
  | _ => none

theorem splitUpdate :
    Update splitJoin.toJoinConfig splitStates splitBefore splitAfter .right splitBatch where
  materialized
    | .left => ⟨_, rfl, State.ofTable_fullOn splitLeft _⟩
    | .right => ⟨_, rfl, State.ofTable_fullOn splitRight _⟩
  valid := rfl
  unchanged := rfl

/-- Neither run of key 1 alone accounts for the two right rows the key has
after the batch, so the padded row is never revoked. -/
theorem splitBatch_keeps_padding :
    Update splitJoin.toJoinConfig splitStates splitBefore splitAfter .right splitBatch ∧
    ¬ ∃ result,
      splitJoin.onInput (splitJoin.parent .right) splitBatch .none .none splitStates =
        .ok (result, splitJoin) ∧
      result.misses = [] ∧
      net result.results =
        counts (splitJoin.joined splitAfter) - counts (splitJoin.joined splitBefore) := by
  refine ⟨splitUpdate, ?_⟩
  rintro ⟨result, ran, _, delta⟩
  injection ran with same
  obtain rfl := congrArg Prod.fst same
  have padded := congrFun delta [.value 1, .value 10, .none]
  revert padded
  decide

theorem onInput_eq_joined_sub_iff_splitBatch :
    (∃ result,
        splitJoin.onInput (splitJoin.parent .right) splitBatch .none .none splitStates =
          .ok (result, splitJoin) ∧
        result.misses = [] ∧
        net result.results =
          counts (splitJoin.joined splitAfter) - counts (splitJoin.joined splitBefore)) ↔
      splitJoin.kind = .inner ∨ Side.right = .left ∨
        PaddingSettled splitJoin.toJoinConfig splitAfter splitBatch :=
  onInput_eq_joined_sub_iff splitUpdate .none

/-! ## Batches from both parents -/

def grownLeft : ℕ → List (Row Nat)
  | 0 => []
  | 1 | 2 => splitLeft
  | _ => [[.value 2, .value 20], [.value 1, .value 10]]

def grownRight : ℕ → List (Row Nat)
  | 0 | 1 => []
  | 2 | 3 => [[.value 1, .value 7], [.value 1, .value 5]]
  | _ => [[.value 2, .value 6]]

def grownTables (n : ℕ) : Tables Nat
  | .left => grownLeft n
  | .right => grownRight n

def grownStates (n : ℕ) : StateMap Nat
  | 0 => some (State.ofTable (grownLeft (n + 1)))
  | 1 => some (State.ofTable (grownRight (n + 1)))
  | _ => none

def grownSide : ℕ → Side
  | 1 | 3 => .right
  | _ => .left

/-- A left row, then both its right rows, another left row, and last the right rows
of the one traded for a right row of the other. -/
def grownBatch : ℕ → List (Record Nat)
  | 0 => [.positive [.value 1, .value 10]]
  | 1 => [.positive [.value 1, .value 5], .positive [.value 1, .value 7]]
  | 2 => [.positive [.value 2, .value 20]]
  | 3 => [.negative [.value 1, .value 7], .negative [.value 1, .value 5],
      .positive [.value 2, .value 6]]
  | _ => []

theorem grownUpdate (n : ℕ) : Update splitJoin.toJoinConfig (grownStates n) (grownTables n)
    (grownTables (n + 1)) (grownSide n) (grownBatch n) where
  materialized
    | .left => ⟨_, rfl, State.ofTable_fullOn (grownLeft (n + 1)) _⟩
    | .right => ⟨_, rfl, State.ofTable_fullOn (grownRight (n + 1)) _⟩
  valid := by
    rcases n with _ | _ | _ | _ | n <;> rfl
  unchanged := by
    rcases n with _ | _ | _ | _ | n <;> rfl

theorem grown_settled (n : ℕ) : splitJoin.kind = .inner ∨ grownSide n = .left ∨
    PaddingSettled splitJoin.toJoinConfig (grownTables (n + 1)) (grownBatch n) := by
  have each {tables : Tables Nat} {batch : List (Record Nat)}
      (same : ∀ row ∈ tables .left, runwisePresence splitJoin.toJoinConfig tables batch row =
        wholePresence splitJoin.toJoinConfig tables batch row) :
      PaddingSettled splitJoin.toJoinConfig tables batch := fun _ =>
    congrArg Multiset.sum (Multiset.map_congr rfl fun row mem => same row (mem_filter.mp mem).1)
  rcases n with _ | _ | _ | _ | n
  case succ.zero => exact .inr (.inr (each (by decide)))
  case succ.succ.succ.zero => exact .inr (.inr (each (by decide)))
  all_goals exact .inr (.inl rfl)

theorem run_eq_joined_sub_grown : (∃ result : ℕ → ProcessingResult Nat,
      (∀ n, splitJoin.onInput (splitJoin.parent (grownSide n)) (grownBatch n) .none .none
        (grownStates n) = .ok (result n, splitJoin) ∧ (result n).misses = []) ∧
      ∀ n, net ((List.range n).flatMap fun step => (result step).results) =
        counts (splitJoin.joined (grownTables n)) - counts (splitJoin.joined (grownTables 0))) ∧
    splitJoin.joined (grownTables 0) = 0 ∧
    splitJoin.joined (grownTables 2) =
      {[.value 1, .value 10, .value 5], [.value 1, .value 10, .value 7]} ∧
    splitJoin.joined (grownTables 4) =
      {[.value 2, .value 20, .value 6], [.value 1, .value 10, .none]} :=
  ⟨run_eq_joined_sub grownUpdate grown_settled .none, by decide, by decide, by decide⟩

end ReadySet.Ops
