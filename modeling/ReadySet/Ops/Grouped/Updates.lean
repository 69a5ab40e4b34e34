import ReadySet.Library.Keyed
import ReadySet.Ops.Grouped.Operator

/-!
Owns what a grouped operator does to its contents over a whole update batch,
for any operation: if the operation computes the aggregate of every group the
batch touches, the own contents go from the summary of the parent before the
batch to the summary of the parent after it.
-/

namespace ReadySet.Ops.Grouped

open Data Library Dataflow List

universe u

namespace GroupedOperator

variable {V Cache Diff : Type u} [LinearOrder V] {key : Key V}

/-! ## The loop -/

section

variable (op : GroupedOperator V Cache Diff) (arith : Arithmetic V)
  (replay : ReplayContext V) (nodes : DomainNodes V) (states : StateMap V) (own : State V)

/-- The balance of positive and negative records. -/
def balance (records : List (Record V)) : ℤ := (records.map Signed.sign).sum

/-- The loop with a whole group collected. -/
def collected (diffOf : Record V → Diff) (loop : LoopState V Cache Diff)
    (records : List (Record V)) : LoopState V Cache Diff :=
  { loop with groupRs := records, diffs := records.map diffOf, posNegDelta := balance records }

/-- No group is being collected. -/
def Drained (loop : LoopState V Cache Diff) : Prop :=
  loop.groupRs = [] ∧ loop.diffs = [] ∧ loop.posNegDelta = 0

variable {op} {diffOf : Record V → Diff}

/-- Records of one group are collected. -/
theorem foldlM_onRecord_same (collectedSoFar records : List (Record V))
    (keyed : ∀ record ∈ collectedSoFar ++ records, op.groupValues record = key)
    (diffs : ∀ record ∈ records,
      op.inner.toDiff record.value record.isPositive = .ok (diffOf record))
    (loop : LoopState V Cache Diff) :
    records.foldlM (op.onRecord arith replay nodes states own)
        (collected diffOf loop collectedSoFar) =
      .ok (collected diffOf loop (collectedSoFar ++ records)) := by
  induction records generalizing collectedSoFar with
  | nil => rw [append_nil]; rfl
  | cons record records ih =>
    have sameGroup : op.beginsGroup (collected diffOf loop collectedSoFar) record = false := by
      cases collectedSoFar with
      | nil => rfl
      | cons first _ =>
        have firstKey := keyed first (by simp)
        have recordKey := keyed record (by simp)
        simp [beginsGroup, collected, firstKey, recordKey]
    have stepped : op.onRecord arith replay nodes states own
        (collected diffOf loop collectedSoFar) record =
          .ok (collected diffOf loop (collectedSoFar ++ [record])) := by
      rw [onRecord, sameGroup, diffs record (by simp)]
      simp [collected, balance]
    rw [foldlM_cons, stepped]
    have later := ih (collectedSoFar ++ [record])
      (by simpa using keyed) (fun other mem => diffs other (by simp [mem]))
    simpa using later

variable {loop : LoopState V Cache Diff}

omit [LinearOrder V] in
theorem collected_nil (drained : Drained loop) : collected diffOf loop [] = loop := by
  obtain ⟨noRecords, noDiffs, balanced⟩ := drained
  cases loop
  simp_all [collected, balance]

theorem finishGroup_drained {finished : LoopState V Cache Diff}
    (finish : op.finishGroup arith replay nodes states own loop = .ok finished) :
    Drained finished := by
  obtain ⟨result, handled, finish⟩ := bind_eq_ok.mp finish
  obtain rfl := Except.ok.inj finish
  exact ⟨rfl, rfl, rfl⟩

theorem foldlM_onRecord_other {record : Record V}
    (begins : op.beginsGroup loop record = true) (records : List (Record V)) :
    (record :: records).foldlM (op.onRecord arith replay nodes states own) loop =
      op.finishGroup arith replay nodes states own loop >>= fun finished =>
        (record :: records).foldlM (op.onRecord arith replay nodes states own) finished := by
  rw [foldlM_cons, onRecord, if_pos begins]
  cases finished : op.finishGroup arith replay nodes states own loop with
  | error error => rfl
  | ok loop' =>
    have drained : op.beginsGroup loop' record = false := by
      rw [beginsGroup, (finishGroup_drained _ _ _ _ _ finished).1]
    change _ = (record :: records).foldlM _ loop'
    rw [foldlM_cons, onRecord, drained]
    rfl

/-- The loop over a list that comes apart into groups handles the groups one
after the other. -/
theorem foldlM_groups (groups : List (Key V × List (Record V))) (some : groups ≠ [])
    (nonempty : ∀ group ∈ groups, group.2 ≠ [])
    (keyed : ∀ group ∈ groups, ∀ record ∈ group.2, op.groupValues record = group.1)
    (nodup : (groups.map Prod.fst).Nodup) (diffs : ∀ group ∈ groups, ∀ record ∈ group.2,
      op.inner.toDiff record.value record.isPositive = .ok (diffOf record))
    (loop : LoopState V Cache Diff) (drained : Drained loop) :
    ((groups.map Prod.snd).flatten.foldlM (op.onRecord arith replay nodes states own) loop
        >>= op.finishGroup arith replay nodes states own) =
      groups.foldlM (fun loop group => op.finishGroup arith replay nodes states own
        (collected diffOf loop group.2)) loop := by
  induction groups generalizing loop with
  | nil => exact absurd rfl some
  | cons head groups ih =>
    obtain ⟨fresh, distinctLater⟩ := nodup_cons.mp nodup
    have collects : head.2.foldlM (op.onRecord arith replay nodes states own) loop =
        .ok (collected diffOf loop head.2) := by
      have whole := foldlM_onRecord_same arith replay nodes states own [] head.2
        (keyed head (by simp)) (diffs head (by simp)) loop
      rwa [collected_nil drained, nil_append] at whole
    rw [map_cons, flatten_cons, foldlM_append, collects, foldlM_cons]
    cases groups with
    | nil =>
      change op.finishGroup arith replay nodes states own (collected diffOf loop head.2) =
        (op.finishGroup arith replay nodes states own (collected diffOf loop head.2) >>= pure)
      rw [bind_pure]
    | cons next groups =>
      have nextGroups := ih (by simp) (fun group mem => nonempty group (mem_cons_of_mem _ mem))
        (fun group mem => keyed group (mem_cons_of_mem _ mem)) distinctLater
        (fun group mem => diffs group (mem_cons_of_mem _ mem))
      obtain ⟨record, later, isCons⟩ := exists_cons_of_ne_nil (nonempty next (by simp))
      obtain ⟨first, others, headCons⟩ := exists_cons_of_ne_nil (nonempty head (by simp))
      have begins : op.beginsGroup (collected diffOf loop head.2) record = true := by
        have firstKey := keyed head (by simp) first (by simp [headCons])
        have recordKey := keyed next (by simp) record (by simp [isCons])
        have ne : head.1 ≠ next.1 := by
          intro same
          exact fresh (by simp [same])
        simp [beginsGroup, collected, headCons, firstKey, recordKey, ne]
      change (((next :: groups).map Prod.snd).flatten.foldlM _ _ >>= _) = _
      rw [map_cons, flatten_cons, isCons, cons_append,
        foldlM_onRecord_other arith replay nodes states own begins]
      cases finish : op.finishGroup arith replay nodes states own
          (collected diffOf loop head.2) with
      | error error => rfl
      | ok finished =>
        have continued := nextGroups finished
          (finishGroup_drained arith replay nodes states own finish)
        rw [map_cons, isCons] at continued
        exact continued

end

/-! ## Summaries -/

section

variable (op : GroupedOperator V Cache Diff) (arith : Arithmetic V)
  (aggregate : Multiset (Row V) → DfValue V)

def group (table : Multiset (Row V)) (key : Key V) : Multiset (Row V) :=
  matching table op.groupBy key

def groupRecords (batch : List (Record V)) (key : Key V) : List (Record V) :=
  batch.filter fun record => op.groupValues record = key

/-- The output row of a group: its key, its aggregate and its number of rows. -/
def summaryRow (key : Key V) (rows : Multiset (Row V)) : Row V :=
  key ++ [aggregate rows, .value (arith.int rows.card)]

/-- The output rows for a key: one if the group has rows. -/
def summary (table : Multiset (Row V)) (key : Key V) : Multiset (Row V) :=
  if op.group table key = 0 then 0
  else {summaryRow arith aggregate key (op.group table key)}

/-- **The own contents hold one row for every non-empty group, and no other
row.** -/
def Summarizes (own table : Multiset (Row V)) : Prop :=
  ∀ key, matching own op.outKey key = op.summary arith aggregate table key

/-- **A valid update batch for a fully materialized own state** that summarizes
the parent before the batch. -/
structure Update (states : StateMap V) (ownState : State V)
    (own before after : Multiset (Row V)) (batch : List (Record V)) : Prop where
  ownHere : states op.us = some ownState
  ownFull : FullOn ownState op.outKey own
  summarizes : op.Summarizes arith aggregate own before
  valid : applyAll before batch = some after

/-- The aggregate that the own contents hold for a key. -/
def held (table : Multiset (Row V)) (key : Key V) : Option (DfValue V) :=
  if op.group table key = 0 then none else some (aggregate (op.group table key))

/-- The operation computes the aggregate of a group after the batch from the one
before it and the group's diffs, whatever it has kept. -/
def Computes (replay : ReplayContext V) (nodes : DomainNodes V) (states : StateMap V)
    (before after : Multiset (Row V)) (batch : List (Record V)) (diffOf : Record V → Diff)
    (key : Key V) : Prop :=
  ∀ cache, ∃ new lookups next,
    op.newValue replay nodes states cache key (op.held aggregate before key)
        ((op.groupRecords batch key).map diffOf) = .ok (some (new, lookups), next) ∧
      (op.group after key ≠ 0 → new = aggregate (op.group after key))

variable {op arith aggregate} {table : Multiset (Row V)}

omit [LinearOrder V] in
theorem outKey_length : op.outKey.length = op.groupBy.length := by simp [outKey]

omit [LinearOrder V] in
theorem clonedIndices_outKey (length : key.length = op.groupBy.length)
    {rest : Row V} : Row.clonedIndices (key ++ rest) op.outKey = key := by
  apply ext_getElem
  · simp [outKey_length, length]
  · intro index inRange _
    have inKey : index < key.length := by
      simpa [outKey_length, length] using inRange
    simp [Row.clonedIndices, outKey, Row.at, List.getElem?_append_left inKey, inKey]

theorem key_of_mem_summary (length : key.length = op.groupBy.length) {row : Row V}
    (mem : row ∈ op.summary arith aggregate table key) : row.clonedIndices op.outKey = key := by
  rw [summary] at mem
  split at mem
  · simp at mem
  · rw [Multiset.mem_singleton.mp mem]
    exact clonedIndices_outKey length

omit [LinearOrder V] in
theorem groupValues_length (record : Record V) :
    (op.groupValues record).length = op.groupBy.length :=
  Row.length_clonedIndices _ _

/-! ## One group -/

/-- The records emitted for a group take its summary before the batch to the
one after it, and are about the group only. -/
structure Handles (op : GroupedOperator V Cache Diff) (arith : Arithmetic V)
    (aggregate : Multiset (Row V) → DfValue V) (before after : Multiset (Row V)) (key : Key V)
    (emitted : List (Record V)) : Prop where
  applied : applyAll (op.summary arith aggregate before key) emitted =
    some (op.summary arith aggregate after key)
  revoked : ∀ row, Signed.negative row ∈ emitted →
    row ∈ op.summary arith aggregate before key
  keyed : ∀ record ∈ emitted, record.value.clonedIndices op.outKey = key

variable {before after : Multiset (Row V)} {batch : List (Record V)} {new : DfValue V}

/-- The old row is revoked and the new one emitted. -/
theorem replace_handles (length : key.length = op.groupBy.length) :
    op.Handles arith aggregate before after key ((if op.group before key = 0 then [] else
          [.negative (summaryRow arith aggregate key (op.group before key))]) ++
        if op.group after key = 0 then [] else
          [.positive (summaryRow arith aggregate key (op.group after key))]) := by
  have keyOfRow : ∀ rows : Multiset (Row V),
      (summaryRow arith aggregate key rows).clonedIndices op.outKey = key :=
    fun rows => clonedIndices_outKey length
  constructor
  · by_cases noneBefore : op.group before key = 0 <;> by_cases noneAfter : op.group after key = 0 <;>
      simp [summary, noneBefore, noneAfter, applyAll, applyOne]
  · intro row mem
    by_cases noneBefore : op.group before key = 0 <;> by_cases noneAfter : op.group after key = 0 <;>
      simp_all [summary]
  · intro record mem
    by_cases noneBefore : op.group before key = 0 <;> by_cases noneAfter : op.group after key = 0 <;>
      simp only [noneBefore, noneAfter, if_true, if_false, nil_append, append_nil,
        not_mem_nil, mem_singleton, mem_append] at mem
    · rw [mem]
      exact keyOfRow _
    · rw [mem]
      exact keyOfRow _
    · rcases mem with rfl | rfl <;> exact keyOfRow _

/-- What is emitted for a group takes its old row to the new one. -/
theorem emitGroup_handles (noEmpty : op.inner.emitEmpty = false)
    (length : key.length = op.groupBy.length) {old : Option (Row V)}
    (oldIs : old = if op.group before key = 0 then none else
      some (summaryRow arith aggregate key (op.group before key)))
    (newIs : op.group after key ≠ 0 → new = aggregate (op.group after key)) :
    op.Handles arith aggregate before after key
      (op.emitGroup arith key old (op.held aggregate before key) new
        (op.group before key).card (op.group after key).card) := by
  by_cases same : op.held aggregate before key = some new ∧
      ((op.group after key).card : ℤ) = (op.group before key).card
  · -- Same value and number of rows: the row stands, and nothing is emitted.
    have someBefore : op.group before key ≠ 0 := by
      intro none
      simp [held, none] at same
    have sameCard : (op.group after key).card = (op.group before key).card := by
      exact_mod_cast same.2
    have someAfter : op.group after key ≠ 0 := by
      rw [← Multiset.card_pos, sameCard, Multiset.card_pos]
      exact someBefore
    have sameValue : aggregate (op.group before key) = aggregate (op.group after key) := by
      have isNew : aggregate (op.group before key) = new := by
        simpa [held, someBefore] using same.1
      rw [isNew, newIs someAfter]
    rw [emitGroup, if_pos same]
    refine ⟨?_, by simp, by simp⟩
    simp [summary, someBefore, someAfter, summaryRow, sameCard, sameValue]
  · have emits : op.emitGroup arith key old (op.held aggregate before key) new
        (op.group before key).card (op.group after key).card =
        (if op.group before key = 0 then [] else
          [.negative (summaryRow arith aggregate key (op.group before key))]) ++
        if op.group after key = 0 then [] else
          [.positive (summaryRow arith aggregate key (op.group after key))] := by
      rw [emitGroup, if_neg same, oldIs, noEmpty]
      congr 1
      · by_cases none : op.group before key = 0 <;> simp [none]
      · by_cases none : op.group after key = 0
        · simp [none]
        · have counted : 0 < ((op.group after key).card : ℤ) := by
            exact_mod_cast Multiset.card_pos.mpr none
          rw [if_pos (.inl counted), if_neg none, newIs none, summaryRow]
    rw [emits]
    exact replace_handles length

variable {replay : ReplayContext V} {nodes : DomainNodes V} {cur : Option (DfValue V)}
  {states : StateMap V}

/-- The operation has lost the value and starts afresh from the group's rows in
the parent. -/
theorem newValue_of_none {parentState : State V}
    (here : states op.src = some parentState) (full : FullOn parentState op.groupBy table)
    (length : key.length = op.groupBy.length) {toDiff : Row V → Diff}
    (diffs : ∀ row, op.inner.toDiff row true = .ok (toDiff row))
    {cache middle : Cache} {changes : List Diff}
    (applied : op.inner.apply cache cur changes = .ok (none, middle)) :
    ∃ rows : List (Row V), (rows : Multiset (Row V)) = op.group table key ∧
      ∀ result next, op.inner.apply middle none (rows.map toDiff) = .ok (result, next) →
        ∃ lookups, op.newValue replay nodes states cache key cur changes =
          .ok (some (result.getD (op.inner.emptyValue.getD .none), lookups), next) := by
  obtain ⟨rows, found, contents⟩ :
      ∃ rows, ingredientLookup op.src op.groupBy key nodes states .strict = .ok (.ofRows rows) ∧
        (rows : Multiset (Row V)) = op.group table key :=
    full.ingredientLookup here length .strict
  refine ⟨rows, contents, fun result next again => ⟨noteLookup replay op.src op.groupBy key, ?_⟩⟩
  have collected : (rows.mapM fun row => op.inner.toDiff row true) = .ok (rows.map toDiff) :=
    mapM_ok fun row _ => diffs row
  simp [newValue, applied, found, IngredientLookupResult.ofRows, collected, again]

theorem applyAll_group (valid : applyAll before batch = some after) (key : Key V) :
    applyAll (op.group before key) (op.groupRecords batch key) = some (op.group after key) :=
  applyAll_filter (fun row : Row V => row.clonedIndices op.groupBy = key) valid

theorem card_group (valid : applyAll before batch = some after) :
    ((op.group before key).card : ℤ) + balance (op.groupRecords batch key) =
      (op.group after key).card := by
  have applied : applyAll (op.group before key) (op.groupRecords batch key) =
      some (op.group after key) := applyAll_group valid key
  have total := total_applyAll (fun _ => (1 : ℤ)) applied
  have weighted : weight (fun _ : Row V => (1 : ℤ)) (op.groupRecords batch key) =
      balance (op.groupRecords batch key) := by
    simp [weight, balance]
  rw [weighted] at total
  simpa using total.symm

variable {ownState : State V} {own : Multiset (Row V)}
  {rows : Multiset (Row V)}

theorem Update.lookup (update : op.Update arith aggregate states ownState own before after
    batch) (length : key.length = op.groupBy.length) :
    ∃ rows, ownState.lookup op.outKey key = .some rows ∧
      rows.head? = if op.group before key = 0 then none else
        some (summaryRow arith aggregate key (op.group before key)) := by
  obtain ⟨rows, found, contents⟩ := update.ownFull.lookup key (by rw [outKey_length, length])
  refine ⟨rows, found, ?_⟩
  rw [update.summarizes key, summary] at contents
  split
  case isTrue none =>
    rw [if_pos none] at contents
    rw [(Multiset.coe_eq_zero rows).mp contents]
    rfl
  case isFalse some =>
    rw [if_neg some] at contents
    rw [Multiset.coe_eq_singleton.mp contents]
    rfl

/-- A whole group is handled without misses. -/
theorem handleGroup_spec (exact_ : arith.Exact) (noEmpty : op.inner.emitEmpty = false)
    (update : op.Update arith aggregate states ownState own before after batch)
    {diffOf : Record V → Diff} (some_ : op.groupRecords batch key ≠ [])
    (computes : op.Computes aggregate replay nodes states before after batch diffOf key)
    (cache : Cache) :
    ∃ result next, op.handleGroup arith replay nodes states ownState cache
        (op.groupRecords batch key) ((op.groupRecords batch key).map diffOf)
        (balance (op.groupRecords batch key)) = .ok (result, next) ∧
      result.misses = [] ∧ op.Handles arith aggregate before after key result.results := by
  obtain ⟨first, others, isCons⟩ := exists_cons_of_ne_nil some_
  have firstKey : op.groupValues first = key := by
    have mem : first ∈ op.groupRecords batch key := by simp [isCons]
    simpa using (mem_filter.mp mem).2
  have length : key.length = op.groupBy.length := by
    rw [← firstKey]
    exact groupValues_length first
  obtain ⟨rows, found, head⟩ := update.lookup length
  obtain ⟨new, lookups, next, computed, isAggregate⟩ := computes cache
  have cur : currentValue rows.head? = op.held aggregate before key := by
    rw [head, held]
    split
    · rfl
    · simp [currentValue, summaryRow]
  have rowsInGroup : currentRows arith rows.head? = (op.group before key).card := by
    rw [head]
    split
    case isTrue none => simp [currentRows, none]
    case isFalse => simp [currentRows, summaryRow, Arithmetic.toInt?, exact_.toInt_int]
  have handled : op.Handles arith aggregate before after key
      (op.emitGroup arith key rows.head? (op.held aggregate before key) new
        (op.group before key).card (op.group after key).card) :=
    emitGroup_handles noEmpty length head isAggregate
  have ran : op.handleGroup arith replay nodes states ownState cache
      (op.groupRecords batch key) ((op.groupRecords batch key).map diffOf)
      (balance (op.groupRecords batch key)) = .ok
      ({ results := op.emitGroup arith key rows.head? (op.held aggregate before key) new
          (op.group before key).card (op.group after key).card
         lookups := noteLookup replay op.us op.outKey key ++ lookups }, next) := by
    rw [← card_group update.valid]
    rw [isCons] at computed ⊢
    simp only [handleGroup, firstKey, found, cur, rowsInGroup, computed, ok_bind, pure_eq_ok]
  exact ⟨_, next, ran, rfl, handled⟩

variable {diffOf : Record V → Diff}

/-- The groups handled so far. -/
structure Handled (op : GroupedOperator V Cache Diff) (arith : Arithmetic V)
    (aggregate : Multiset (Row V) → DfValue V) (before after : Multiset (Row V))
    (done : List (Key V × List (Record V))) (loop : LoopState V Cache Diff) : Prop where
  drained : Drained loop
  noMisses : loop.result.misses = []
  emitted : ∃ emitted : List (Key V × List (Record V)),
    emitted.map Prod.fst = done.map Prod.fst ∧
      loop.result.results = emitted.flatMap Prod.snd ∧
      ∀ group ∈ emitted, op.Handles arith aggregate before after group.1 group.2

variable {group : Key V × List (Record V)}

/-- One more group is handled. -/
theorem Handled.finishGroup (replay : ReplayContext V) (nodes : DomainNodes V)
    (diffOf : Record V → Diff) (exact_ : arith.Exact) (noEmpty : op.inner.emitEmpty = false)
    (update : op.Update arith aggregate states ownState own before after batch)
    {done : List (Key V × List (Record V))}
    (records : group.2 = op.groupRecords batch group.1) (some_ : group.2 ≠ [])
    (computes : op.Computes aggregate replay nodes states before after batch diffOf group.1)
    {loop : LoopState V Cache Diff} (handled : op.Handled arith aggregate before after done loop) :
    ∃ next, op.finishGroup arith replay nodes states ownState
        (collected diffOf loop group.2) = .ok next ∧
      op.Handled arith aggregate before after (done ++ [group]) next := by
  rw [records] at some_
  obtain ⟨result, cache, ran, noMisses, handles⟩ :=
    handleGroup_spec exact_ noEmpty update some_ computes loop.cache
  obtain ⟨emitted, keys, results, earlier⟩ := handled.emitted
  refine ⟨{ result := loop.result ++ result, cache }, ?_, ⟨rfl, rfl, rfl⟩, ?_, ?_⟩
  · simp [GroupedOperator.finishGroup, collected, records, ran]
  · simp [handled.noMisses, noMisses]
  · refine ⟨emitted ++ [(group.1, result.results)], by simp [keys], by simp [results], ?_⟩
    intro other mem
    rcases mem_append.mp mem with old | new
    · exact earlier other old
    · rw [mem_singleton.mp new]
      exact handles

/-! ## The whole batch -/

/-- The groups of a batch, as the sort brings them together. -/
def groupsOf (op : GroupedOperator V Cache Diff) (batch : List (Record V)) :
    List (Key V × List (Record V)) :=
  Library.groupsOf Key.cmp op.groupValues batch

theorem groupsOf_records (mem : group ∈ op.groupsOf batch) :
    group.2 = op.groupRecords batch group.1 :=
  eq_filter_of_mem_groupsOf mem

theorem groupsOf_keyed (mem : group ∈ op.groupsOf batch) :
    ∀ record ∈ group.2, op.groupValues record = group.1 :=
  fun _ present => runs_key_of_mem op.groupValues mem present

theorem groupsOf_length (mem : group ∈ op.groupsOf batch) :
    group.1.length = op.groupBy.length := by
  obtain ⟨record, present⟩ := exists_mem_of_ne_nil _ (ne_nil_of_mem_groupsOf mem)
  rw [← groupsOf_keyed mem record present]
  exact groupValues_length record

theorem summary_after_eq (valid : applyAll before batch = some after)
    (untouched : op.groupRecords batch key = []) :
    op.summary arith aggregate after key = op.summary arith aggregate before key := by
  have restricted : applyAll (op.group before key) (op.groupRecords batch key) =
      some (op.group after key) := applyAll_group valid key
  rw [untouched] at restricted
  rw [summary, summary, Option.some.inj restricted]

section

variable (exact_ : arith.Exact) (noEmpty : op.inner.emitEmpty = false)
  (update : op.Update arith aggregate states ownState own before after batch)
  (diffs : ∀ record ∈ batch, op.inner.toDiff record.value record.isPositive = .ok (diffOf record))
  (computes : ∀ key, op.groupRecords batch key ≠ [] →
    op.Computes aggregate replay nodes states before after batch diffOf key) (cache : Cache)

include exact_ noEmpty update diffs computes

/-- The loop over a batch handles all its groups. -/
theorem onInput_handled (noRecords : batch ≠ []) :
    ∃ loop, op.onInput arith cache batch replay nodes states = .ok (loop.result, loop.cache) ∧
      op.Handled arith aggregate before after (op.groupsOf batch) loop := by
  have touchedOf : ∀ group ∈ op.groupsOf batch, op.groupRecords batch group.1 ≠ [] :=
    fun group mem => mem_keys_groupsOf.mp (mem_map_of_mem mem)
  obtain ⟨loop, folded, handled⟩ := foldlM_invariant
    (fun loop group => op.finishGroup arith replay nodes states ownState
      (collected diffOf loop group.2))
    (op.Handled arith aggregate before after) (op.groupsOf batch)
    (fun done group rest loop split handled => by
      have mem : group ∈ op.groupsOf batch := by simp [split]
      exact Handled.finishGroup replay nodes diffOf exact_ noEmpty update
        (groupsOf_records mem) (ne_nil_of_mem_groupsOf mem)
        (computes group.1 (touchedOf group mem)) handled)
    (show op.Handled arith aggregate before after [] { cache } from
      ⟨⟨rfl, rfl, rfl⟩, rfl, [], rfl, rfl, by simp⟩)
  have looped := foldlM_groups arith replay nodes states ownState (op.groupsOf batch)
    (groupsOf_ne_nil noRecords) (fun group => ne_nil_of_mem_groupsOf)
    (fun group => groupsOf_keyed) groupsOf_keys_nodup
    (fun group mem record present => diffs record (by
      rw [groupsOf_records mem] at present
      exact (mem_filter.mp present).1)) { cache } ⟨rfl, rfl, rfl⟩
  rw [folded, groupsOf, Library.groupsOf, runs_flatten] at looped
  refine ⟨loop, ?_, handled⟩
  rw [onInput, if_neg noRecords]
  simp only [update.ownHere]
  rw [← bind_assoc]
  exact congrArg (fun ran : ReadySetResult (LoopState V Cache Diff) => ran >>= fun loop =>
    pure (loop.result, loop.cache)) looped

/-- **A batch through the operator.** If the operation computes the aggregate of
every group the batch touches, the emitted records take the own contents to the
summary of the updated parent; they revoke rows of the own contents only, and
are about touched groups only. -/
theorem onInput_spec :
    ∃ result next settled, op.onInput arith cache batch replay nodes states = .ok (result, next) ∧
      result.misses = [] ∧ applyAll own result.results = some settled ∧
      op.Summarizes arith aggregate settled after ∧
      (∀ row, Signed.negative row ∈ result.results → row ∈ own) ∧
      ∀ record ∈ result.results,
        op.groupRecords batch (record.value.clonedIndices op.outKey) ≠ [] := by
  by_cases noRecords : batch = []
  · have unchanged : before = after := by simpa [noRecords] using update.valid
    refine ⟨{}, cache, own, ?_, rfl, rfl, unchanged ▸ update.summarizes, by simp, by simp⟩
    rw [onInput, if_pos noRecords]
  obtain ⟨loop, ran, handled⟩ :=
    onInput_handled exact_ noEmpty update diffs computes cache noRecords
  obtain ⟨emitted, keys, results, handles⟩ := handled.emitted
  have nodup : (emitted.map Prod.fst).Nodup := keys ▸ groupsOf_keys_nodup
  have length : ∀ group ∈ emitted, group.1.length = op.groupBy.length := by
    intro group mem
    have inKeys : group.1 ∈ (op.groupsOf batch).map Prod.fst := keys ▸ mem_map_of_mem mem
    obtain ⟨run, isRun, same⟩ := mem_map.mp inKeys
    exact same ▸ groupsOf_length isRun
  have partOwn : ∀ key, part (fun row : Row V => row.clonedIndices op.outKey) own key =
      op.summary arith aggregate before key := update.summarizes
  have groupApplied : ∀ group ∈ emitted,
      applyAll (part (fun row : Row V => row.clonedIndices op.outKey) own group.1) group.2 =
        some (op.summary arith aggregate after group.1) := by
    intro group mem
    rw [partOwn]
    exact (handles group mem).applied
  obtain ⟨settled, applied, parts, untouched⟩ := applyAll_parts nodup groupApplied
    fun group mem row present => key_of_mem_summary (length group mem) present
  refine ⟨loop.result, loop.cache, settled, ran, handled.noMisses, results ▸ applied, ?_, ?_, ?_⟩
  · intro key
    by_cases touched : op.groupRecords batch key = []
    · refine (untouched key fun present => ?_).trans
        ((partOwn key).trans (summary_after_eq update.valid touched).symm)
      exact mem_keys_groupsOf.mp (keys ▸ present) touched
    · have present : key ∈ emitted.map Prod.fst := keys ▸ mem_keys_groupsOf.mpr touched
      obtain ⟨group, mem, rfl⟩ := mem_map.mp present
      exact parts group mem
  · intro row revoked
    rw [results] at revoked
    obtain ⟨group, mem, present⟩ := mem_flatMap.mp revoked
    have inPart := (handles group mem).revoked row present
    rw [← partOwn] at inPart
    exact (mem_part.mp inPart).1
  · intro record present
    rw [results] at present
    obtain ⟨group, mem, inGroup⟩ := mem_flatMap.mp present
    rw [(handles group mem).keyed record inGroup]
    exact mem_keys_groupsOf.mp (keys ▸ mem_map_of_mem mem)

end

end

end GroupedOperator

end ReadySet.Ops.Grouped
