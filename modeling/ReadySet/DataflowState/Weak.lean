import ReadySet.DataflowState.Completeness

/-!
Owns the weak indices of a memory state: when they hold exactly the rows that
some filled key of a strict index stores, each as often as the table has it,
and no key without rows.

A weak index is written once per record that hits a strict index, and once per
evicted row, while a row may be stored in several strict indices and several
times. So not every run keeps the weak indices exact, and the condition on each
step is stated here (`MemoryWorld.KeepsWeak`).

Does not own `evict_bytes`.
-/

namespace ReadySet.DataflowState

open Data Library Dataflow SingleState KeyedState MemoryWorld Function Option
open List (any_eq_true mem_map mem_append mem_of_getElem? map_id mem_singleton)
open Multiset (filter_congr notMem_zero mem_filter mem_cons_self cons_coe add_cons count_filter
  count_eq_zero_of_notMem)

universe u

variable {V : Type u} [LinearOrder V] {row : Row V}

/-! ## Stored rows -/

namespace MemoryState

/-- Some filled key of a strict index stores the row. -/
def stores (memory : MemoryState V) (row : Row V) : Bool :=
  memory.state.any fun single =>
    decide (row ∈ (single.state.view (row.clonedIndices single.columns)).getD 0)

/-- Some strict index has the row's key filled. -/
def fills (memory : MemoryState V) (row : Row V) : Bool :=
  memory.state.any fun single => (single.state.view (row.clonedIndices single.columns)).isSome

/-- Some strict index would have the row's key filled if some keys of one index
were holes. -/
def FillsWithout (memory : MemoryState V) (index : Index) (gone : Key V → Prop) (row : Row V) :
    Prop :=
  ∃ single ∈ memory.state, (single.state.view (row.clonedIndices single.columns)).isSome = true ∧
    (single.index = index → ¬ gone (row.clonedIndices single.columns))

theorem fills_iff {memory : MemoryState V} :
    memory.fills row = true ↔ ∃ single ∈ memory.state,
      (single.state.view (row.clonedIndices single.columns)).isSome = true :=
  any_eq_true

end MemoryState

open MemoryState (fills fills_iff processRecord stores)

/-- The rows that the weak indices are about. -/
def MemoryWorld.stored (world : MemoryWorld V) : Multiset (Row V) :=
  world.table.filter fun row => world.memory.stores row = true

/-- For a complete state, a row of the table is stored as soon as one of its
keys is filled. -/
theorem MemoryWorld.stored_eq {world : MemoryWorld V} {width : Nat}
    (inv : Maintains width world.table world.memory) :
    world.stored = world.table.filter fun row => world.memory.fills row = true := by
  refine filter_congr fun row inTable => ?_
  rw [fills_iff, stores, List.any_eq_true]
  constructor
  · rintro ⟨single, mem, holds⟩
    refine ⟨single, mem, ?_⟩
    cases view : single.state.view (row.clonedIndices single.columns) with
    | some held => rfl
    | none =>
      rw [view] at holds
      exact absurd (of_decide_eq_true holds) (notMem_zero row)
  · rintro ⟨single, mem, filled⟩
    obtain ⟨held, view⟩ := isSome_iff_exists.mp filled
    refine ⟨single, mem, decide_eq_true ?_⟩
    rw [view, (inv.complete single mem).agrees _ held (answer_of_view view)]
    exact mem_filter.mpr ⟨inTable, rfl⟩

/-! ## One weak index -/

/-- A weak index has the rows of some contents. Keys without rows may be left. -/
def HoldsRows (contents : Multiset (Row V)) (weak : List Nat × KeyedState V) : Prop :=
  ∀ key, (weak.2.view key).getD 0 = matching contents weak.1 key

/-- A weak index only has keys with rows. -/
def NoEmptyKeys (weak : List Nat × KeyedState V) : Prop :=
  ∀ key, weak.2.view key ≠ some 0

section

variable {contents : Rows V} {weak : List Nat × KeyedState V}

/-- What the weak index does with an inserted row. -/
def weakInsert (row : Row V) (weak : List Nat × KeyedState V) : List Nat × KeyedState V :=
  (weak.1, (weak.2.insert weak.1 row false).2)

/-- What the weak index does with a removed row. -/
def weakRemove (row : Row V) (weak : List Nat × KeyedState V) : List Nat × KeyedState V :=
  (weak.1, (weak.2.remove weak.1 row).state)

/-- A weak index has no holes: every insertion succeeds. -/
theorem weakInsert_view (row : Row V) (weak : List Nat × KeyedState V) :
    (weakInsert row weak).2.view = update weak.2.view (row.clonedIndices weak.1)
      (some (row ::ₘ (weak.2.view (row.clonedIndices weak.1)).getD 0)) := by
  rw [weakInsert, (insert_spec false).2, Bool.not_false, Bool.or_true, if_pos rfl]

section

variable (holds : HoldsRows contents weak)

include holds

theorem HoldsRows.insert (row : Row V) : HoldsRows (row ::ₘ contents) (weakInsert row weak) := by
  intro key
  have columns : (weakInsert row weak).1 = weak.1 := rfl
  rw [weakInsert_view, columns, matching_cons, update_apply, update_apply]
  split
  case isTrue => rw [getD_some, holds]
  case isFalse => exact holds key

theorem weakRemove_view (mem : row ∈ contents) :
    (weakRemove row weak).2.view = update weak.2.view (row.clonedIndices weak.1)
      (some ((matching contents weak.1 (row.clonedIndices weak.1)).erase row)) := by
  have here : row ∈ matching contents weak.1 (row.clonedIndices weak.1) := mem_filter.mpr ⟨mem, rfl⟩
  rw [weakRemove, remove_spec.2]
  rw [← holds] at here ⊢
  cases view : weak.2.view (row.clonedIndices weak.1) with
  | some rows =>
    rw [view, getD_some] at here
    rw [map_some, doRemove_of_mem here, getD_some]
  | none =>
    rw [view] at here
    exact absurd here (notMem_zero row)

theorem HoldsRows.remove (mem : row ∈ contents) :
    HoldsRows (contents.erase row) (weakRemove row weak) := by
  intro key
  have columns : (weakRemove row weak).1 = weak.1 := rfl
  rw [weakRemove_view holds mem, columns, matching_erase, update_apply, update_apply]
  split
  case isTrue => rfl
  case isFalse => exact holds key

end

theorem weakInsert_isSome {key : Key V}
    (filled : ((weakInsert row weak).2.view key).isSome = true) :
    (weak.2.view key).isSome = true ∨ row.clonedIndices weak.1 = key := by
  rw [weakInsert_view, update_apply] at filled
  split at filled
  case isTrue same => exact .inr same.symm
  case isFalse => exact .inl filled

section

variable (holds : HoldsRows contents weak)

include holds

theorem weakRemove_isSome (mem : row ∈ contents) {key : Key V}
    (filled : ((weakRemove row weak).2.view key).isSome = true) :
    (weak.2.view key).isSome = true := by
  rw [weakRemove_view holds mem, update_apply] at filled
  split at filled
  case isFalse => exact filled
  case isTrue same =>
    -- The row itself stands under the key.
    have here : row ∈ (weak.2.view key).getD 0 := by
      rw [holds, same]
      exact mem_filter.mpr ⟨mem, rfl⟩
    cases view : weak.2.view key with
    | some rows => rfl
    | none =>
      rw [view] at here
      exact absurd here (notMem_zero row)

theorem exists_of_isSome (noEmpty : NoEmptyKeys weak) {key : Key V}
    (filled : (weak.2.view key).isSome = true) :
    ∃ row ∈ contents, row.clonedIndices weak.1 = key := by
  obtain ⟨rows, view⟩ := isSome_iff_exists.mp filled
  have notEmpty : rows ≠ 0 := by
    rintro rfl
    exact noEmpty key view
  obtain ⟨row, inRows⟩ := Multiset.exists_mem_of_ne_zero notEmpty
  have matched : row ∈ matching contents weak.1 key := by
    rw [← holds, view]
    exact inRows
  exact ⟨row, mem_filter.mp matched⟩

theorem noEmptyKeys_of_rows (covered : ∀ key, (weak.2.view key).isSome = true →
      ∃ row ∈ contents, row.clonedIndices weak.1 = key) :
    NoEmptyKeys weak := by
  intro key empty
  obtain ⟨row, inContents, hasKey⟩ := covered key (by rw [empty]; rfl)
  have matched : row ∈ matching contents weak.1 key := mem_filter.mpr ⟨inContents, hasKey⟩
  rw [← holds, empty] at matched
  exact notMem_zero row matched

end

end

/-! ## The condition on a step -/

/-- A weak index has exactly the rows of some contents, and no other keys. -/
structure WeakExact (contents : Multiset (Row V)) (weak : List Nat × KeyedState V) : Prop where
  keyLen : weak.2.keyLen = weak.1.length
  holds : HoldsRows contents weak
  noEmpty : NoEmptyKeys weak

/-- What a step has to meet for the weak indices to stay exact. All strict
indices are partial, and weak indices are added before rows are stored. Then
* an update must leave no weak key without rows,
* a replay must not bring rows that another index already stores,
* a hole may only drop rows that another index still stores,
* an evicted row must be in the table once, in no other index, and not be the
  last one of a weak key. -/
def MemoryWorld.KeepsWeak (world : MemoryWorld V) : MemoryStep V → Prop
  | .addKey _ tags => tags.isSome = true
  | .addWeakKey _ => world.stored = 0
  | .update batch =>
    ∀ weak ∈ world.memory.weakIndices, ∀ after, applyAll world.table batch = some after →
      ∀ row, (row ∈ world.table ∨ .positive row ∈ batch) → world.memory.fills row = true →
        ∃ other ∈ after, world.memory.fills other = true ∧
          other.clonedIndices weak.1 = row.clonedIndices weak.1
  | .replay _ _ rows =>
    world.memory.weakIndices ≠ [] → ∀ row ∈ rows, world.memory.fills row = false
  | .markHole key tag =>
    world.memory.weakIndices ≠ [] → ∀ single, world.memory.taggedIndex tag = some single →
      ∀ row ∈ world.table, world.memory.fills row = true →
        world.memory.FillsWithout single.index (fun point => key.contains point = true) row
  | .evictKeys tag keys =>
    ∀ weak ∈ world.memory.weakIndices, ∀ single, world.memory.taggedIndex tag = some single →
      let remains := world.memory.FillsWithout single.index
        fun point => ∃ key ∈ keys, key.contains point = true
      ∀ row ∈ world.table,
        (single.state.view (row.clonedIndices single.columns)).isSome = true →
        (∃ key ∈ keys, key.contains (row.clonedIndices single.columns) = true) →
        world.table.count row = 1 ∧ ¬ remains row ∧
          ∃ other ∈ world.table, remains other ∧
            other.clonedIndices weak.1 = row.clonedIndices weak.1
  | .evictBytes _ => False

/-- What holds throughout a run. -/
structure WeakInvariant (width : Nat) (world : MemoryWorld V) : Prop where
  maintains : Maintains width world.table world.memory
  isPartial : ∀ single ∈ world.memory.state, single.isPartial = true
  exact_ : ∀ weak ∈ world.memory.weakIndices,
    WeakExact (world.table.filter fun row => world.memory.fills row = true) weak

section

variable {width : Nat} {table : Rows V} {memory : MemoryState V}

/-! ## Records -/

variable {single : SingleState V}

theorem isSome_onRecord (isPartial : single.isPartial = true) (record : Record V) (key : Key V) :
    ((onRecord record single).state.view key).isSome = (single.state.view key).isSome := by
  cases record with
  | positive row =>
    change ((single.state.insert single.columns row single.isPartial).2.view key).isSome = _
    rw [(insert_spec single.isPartial).2, isPartial, Bool.not_true, Bool.or_false]
    split
    case isTrue filled =>
      rw [update_apply]
      split
      case isTrue same => rw [same, filled, isSome_some]
      case isFalse => rfl
    case isFalse => rfl
  | negative row =>
    change ((single.state.remove single.columns row).state.view key).isSome = _
    rw [remove_spec.2, update_apply]
    split
    case isTrue same => rw [same, isSome_map]
    case isFalse => rfl

variable {record : Record V} {after : MemoryState V}

theorem fills_onRecord (isPartial : ∀ single ∈ memory.state, single.isPartial = true)
    (state : after.state = memory.state.map (onRecord record)) :
    after.fills row = memory.fills row := by
  rw [Bool.eq_iff_iff, fills_iff, fills_iff, state]
  simp only [List.mem_map, exists_exists_and_eq_and]
  refine exists_congr fun single => and_congr_right fun mem => ?_
  rw [columns, onRecord_index, isSome_onRecord (isPartial single mem)]
  rfl

/-- What the weak indices do with a record that hits. -/
def onWeak (record : Record V) (weak : List Nat × KeyedState V) : List Nat × KeyedState V :=
  match record with
  | .positive row => weakInsert row weak
  | .negative row => weakRemove row weak

theorem weakIndices_processRecord (isPartial : ∀ single ∈ memory.state, single.isPartial = true)
    {hit : Bool} (processed : memory.processRecord none record = .ok (hit, after)) :
    after.weakIndices = if memory.fills record.value then memory.weakIndices.map (onWeak record)
      else memory.weakIndices := by
  cases record with
  | positive row =>
    have hits : (memory.state.any fun single => (single.insertRow row).1) = memory.fills row := by
      rw [Bool.eq_iff_iff, fills_iff, List.any_eq_true]
      refine exists_congr fun single => and_congr_right fun mem => ?_
      rw [insertRow_hit, answer_eq_view (isPartial single mem)]
    simp only [processRecord, MemoryState.insert, hits, Except.ok.injEq, Prod.mk.injEq] at processed
    rw [← processed.2, Signed.value_positive]
    cases memory.fills row <;> rfl
  | negative row =>
    have hits : (memory.state.any fun single => (single.removeRow row).1) = memory.fills row := by
      exact List.any_congr rfl fun single => remove_spec.1
    simp only [processRecord, MemoryState.remove, hits, Except.ok.injEq, Prod.mk.injEq] at processed
    rw [← processed.2, Signed.value_negative]
    cases memory.fills row <;> rfl

/-- The weak indices in the middle of a batch: they have the rows of the table
reached, and only keys of rows that were stored before or came since. -/
structure WeakMidway (memory : MemoryState V) (table : Multiset (Row V)) (done : List (Record V))
    (current : MemoryState V) : Prop where
  isPartial : ∀ single ∈ current.state, single.isPartial = true
  fills : ∀ row, current.fills row = memory.fills row
  midway : ∃ now, applyAll table done = some now ∧ ∀ weak ∈ current.weakIndices,
    weak.1 ∈ memory.weakIndices.map Prod.fst ∧ weak.2.keyLen = weak.1.length ∧
    HoldsRows (now.filter fun row => memory.fills row = true) weak ∧
    ∀ key, (weak.2.view key).isSome = true → ∃ row, (row ∈ table ∨ .positive row ∈ done) ∧
      memory.fills row = true ∧ row.clonedIndices weak.1 = key

section

variable (record : Record V) (weak : List Nat × KeyedState V)

theorem keyLen_onWeak : (onWeak record weak).2.keyLen = weak.2.keyLen := by
  cases record with
  | positive row =>
    have shape : (onWeak (.positive row) weak).2.shape = weak.2.shape := shape_insert false
    exact (Prod.mk.inj shape).2
  | negative row =>
    have shape : (onWeak (.negative row) weak).2.shape = weak.2.shape := shape_remove
    exact (Prod.mk.inj shape).2

theorem onWeak_fst : (onWeak record weak).1 = weak.1 := by
  cases record <;> rfl

end

variable {weak : List Nat × KeyedState V} {now next : Rows V} {keep : Row V → Bool}

section

variable (applied : applyOne now record = some next)

include applied

section

variable (hits : keep record.value = true)
  (holds : HoldsRows (now.filter fun row => keep row = true) weak)

include hits holds

theorem HoldsRows.onWeak :
    HoldsRows (next.filter fun row => keep row = true) (onWeak record weak) := by
  cases record with
  | positive row =>
    obtain rfl : row ::ₘ now = next := by simpa [applyOne] using applied
    rw [Multiset.filter_cons_of_pos now hits]
    exact holds.insert row
  | negative row =>
    obtain ⟨mem, rfl⟩ := applyOne_negative_eq_some.mp applied
    have erased : ((now.erase row).filter fun row => keep row = true) =
        (now.filter fun row => keep row = true).erase row := by
      apply filter_erase_of_pos
      exact hits
    rw [erased]
    exact holds.remove (mem_filter.mpr ⟨mem, hits⟩)

theorem isSome_onWeak {key : Key V}
    (filled : ((ReadySet.DataflowState.onWeak record weak).2.view key).isSome = true) :
    (weak.2.view key).isSome = true ∨
      record = .positive record.value ∧ record.value.clonedIndices weak.1 = key := by
  cases record with
  | positive row =>
    rcases weakInsert_isSome filled with before | isRow
    · exact .inl before
    · exact .inr ⟨rfl, isRow⟩
  | negative row =>
    obtain ⟨mem, rfl⟩ := applyOne_negative_eq_some.mp applied
    exact .inl (weakRemove_isSome holds (mem_filter.mpr ⟨mem, hits⟩) filled)

end

theorem filter_applyOne (misses : ¬ keep record.value = true) :
    (next.filter fun row => keep row = true) = now.filter fun row => keep row = true := by
  cases record with
  | positive row =>
    obtain rfl : row ::ₘ now = next := by simpa [applyOne] using applied
    exact Multiset.filter_cons_of_neg now misses
  | negative row =>
    obtain ⟨_, rfl⟩ := applyOne_negative_eq_some.mp applied
    apply filter_erase_of_neg
    exact misses

end

/-- One more record of a batch, in the weak indices. -/
theorem WeakMidway.processed {done rest : List (Record V)} {final : Rows V} {cur : MemoryState V}
    (valid : applyAll table (done ++ record :: rest) = some final)
    (midway : WeakMidway memory table done cur) :
    ∃ hit after, cur.processRecord none record = .ok (hit, after) ∧
      WeakMidway memory table (done ++ [record]) after := by
  obtain ⟨now, reached, weakNow⟩ := midway.midway
  rw [applyAll_append, reached] at valid
  obtain ⟨next, applied, _⟩ := applyAll_cons_eq_some.mp valid
  obtain ⟨hit, after, processed, state, _⟩ := processRecord_untagged cur record
  have weakIs := weakIndices_processRecord midway.isPartial processed
  rw [midway.fills] at weakIs
  have reachedNext : applyAll table (done ++ [record]) = some next := by
    rw [applyAll_append, reached]
    exact applyAll_cons_eq_some.mpr ⟨next, applied, rfl⟩
  have earlier {row : Row V} (came : row ∈ table ∨ .positive row ∈ done) :
      row ∈ table ∨ .positive row ∈ done ++ [record] :=
    came.imp_right (List.mem_append_left [record])
  refine ⟨hit, after, processed, ?_, fun row => ?_, next, reachedNext, fun weak mem => ?_⟩
  · rw [state]
    intro single mem
    obtain ⟨before, inState, rfl⟩ := mem_map.mp mem
    rw [← midway.isPartial before inState]
    cases record <;> rfl
  · exact (fills_onRecord midway.isPartial state).trans (midway.fills row)
  · rw [weakIs] at mem
    split at mem
    case isTrue hits =>
      obtain ⟨before, inWeak, rfl⟩ := mem_map.mp mem
      obtain ⟨known, keyLen, holds, keys⟩ := weakNow before inWeak
      rw [onWeak_fst, keyLen_onWeak]
      refine ⟨known, keyLen, holds.onWeak applied hits, fun key filled => ?_⟩
      rcases isSome_onWeak applied hits holds filled with old | ⟨isPositive, hasKey⟩
      · obtain ⟨row, came, fills, hasKey⟩ := keys key old
        exact ⟨row, earlier came, fills, hasKey⟩
      · refine ⟨record.value, .inr ?_, hits, hasKey⟩
        rw [← isPositive]
        simp
    case isFalse misses =>
      obtain ⟨known, keyLen, holds, keys⟩ := weakNow weak mem
      refine ⟨known, keyLen, ?_, fun key filled => ?_⟩
      · rw [filter_applyOne applied misses]
        exact holds
      · obtain ⟨row, came, fills, hasKey⟩ := keys key filled
        exact ⟨row, earlier came, fills, hasKey⟩

/-! ## One index changes -/

variable {after : SingleState V} {idx : Nat}

theorem mem_set_iff (nodup : (memory.state.map index).Nodup)
    {other : SingleState V} (here : memory.state[idx]? = some single) :
    other ∈ memory.state.set idx after ↔
      other = after ∨ other ∈ memory.state ∧ other.index ≠ single.index := by
  obtain ⟨bound, isSingle⟩ := List.getElem?_eq_some_iff.mp here
  obtain ⟨front, back, isState, _, isSet⟩ := @List.exists_of_set _ idx after memory.state bound
  rw [isSingle] at isState
  rw [isState, List.map_append] at nodup
  have apart := List.nodup_middle.mp nodup
  rw [List.nodup_cons, ← List.map_append] at apart
  have elsewhere : other ∈ front ++ back → other.index ≠ single.index := by
    intro mem same
    exact apart.1 (mem_map.mpr ⟨other, mem, same⟩)
  rw [isSet, isState]
  simp only [mem_append, List.mem_cons] at elsewhere ⊢
  constructor
  · rintro (inFront | isAfter | inBack)
    · exact .inr ⟨.inl inFront, elsewhere (.inl inFront)⟩
    · exact .inl isAfter
    · exact .inr ⟨.inr (.inr inBack), elsewhere (.inr inBack)⟩
  · rintro (isAfter | ⟨inFront | isHere | inBack, ne⟩)
    · exact .inr (.inl isAfter)
    · exact .inl inFront
    · exact absurd (congrArg index isHere) ne
    · exact .inr (.inr inBack)

variable {changed : MemoryState V} {contents : Rows V} {gone : Key V → Prop}

section

variable (nodup : (memory.state.map index).Nodup) (here : memory.state[idx]? = some single)

include nodup here

/-- A row is filled in the index that changed, or in another one. -/
theorem fills_set (sameIndex : after.index = single.index)
    (state : changed.state = memory.state.set idx after) (row : Row V) :
    changed.fills row = true ↔
      (after.state.view (row.clonedIndices single.columns)).isSome = true ∨
        ∃ other ∈ memory.state, other.index ≠ single.index ∧
          (other.state.view (row.clonedIndices other.columns)).isSome = true := by
  have columns : after.columns = single.columns := congrArg Index.columns sameIndex
  rw [fills_iff, state, ← columns]
  constructor
  · rintro ⟨other, mem, filled⟩
    rcases (mem_set_iff nodup here).mp mem with rfl | ⟨inState, ne⟩
    · exact .inl filled
    · exact .inr ⟨other, inState, ne, filled⟩
  · rintro (filled | ⟨other, inState, ne, filled⟩)
    · exact ⟨after, (mem_set_iff nodup here).mpr (.inl rfl), filled⟩
    · exact ⟨other, (mem_set_iff nodup here).mpr (.inr ⟨inState, ne⟩), filled⟩

theorem fills_emptied (emptied : SingleState.Emptied single gone after)
    (state : changed.state = memory.state.set idx after) (row : Row V) :
    changed.fills row = true ↔ memory.FillsWithout single.index gone row := by
  rw [fills_set nodup here emptied.index state]
  constructor
  · rintro (filled | ⟨other, inState, ne, filled⟩)
    · obtain ⟨held, view⟩ := isSome_iff_exists.mp filled
      obtain ⟨notGone, viewBefore⟩ := emptied.filled view
      exact ⟨single, mem_of_getElem? here, by rw [viewBefore]; rfl, fun _ => notGone⟩
    · exact ⟨other, inState, filled, fun same => absurd same ne⟩
  · rintro ⟨other, inState, filled, remains⟩
    by_cases same : other.index = single.index
    · obtain rfl : other = single :=
        List.inj_on_of_nodup_map nodup inState (mem_of_getElem? here) same
      exact .inl (by rwa [emptied.kept _ (remains rfl)])
    · exact .inr ⟨other, inState, same, filled⟩

theorem fills_filled {key : KeyComparison V} {filled : SingleState V}
    (isPartial : single.isPartial = true) (filledPartial : filled.isPartial = true)
    (sameIndex : filled.index = single.index) (answers : ∀ point, (filled.answer point).isSome =
      (key.contains point || (single.answer point).isSome))
    (state : changed.state = memory.state.set idx filled)
    :
    changed.fills row = true ↔
      memory.fills row = true ∨ key.contains (row.clonedIndices single.columns) = true := by
  simp only [answer_eq_view isPartial, answer_eq_view filledPartial] at answers
  have unchanged : memory.state = memory.state.set idx single := by
    obtain ⟨within, isSingle⟩ := List.getElem?_eq_some_iff.mp here
    rw [← isSingle, List.set_getElem_self]
  rw [fills_set nodup here sameIndex state, fills_set nodup here rfl unchanged, answers,
    Bool.or_eq_true]
  exact or_assoc.trans or_comm

end

/-! ## Rows into and out of the weak indices -/

theorem WeakExact.insertAll (isExact : WeakExact contents weak) (rows : List (Row V)) :
    WeakExact (contents + (rows : Rows V))
      (rows.foldl (fun weak row => weakInsert row weak) weak) := by
  induction rows generalizing contents weak with
  | nil => simpa using isExact
  | cons row rest ih =>
    have added : WeakExact (row ::ₘ contents) (weakInsert row weak) := by
      refine ⟨(keyLen_onWeak (.positive row) weak).trans isExact.keyLen,
        isExact.holds.insert row, noEmptyKeys_of_rows (isExact.holds.insert row) ?_⟩
      intro key filled
      rcases weakInsert_isSome filled with before | isRow
      · obtain ⟨old, inContents, hasKey⟩ := exists_of_isSome isExact.holds isExact.noEmpty before
        exact ⟨old, Multiset.mem_cons_of_mem inContents, hasKey⟩
      · exact ⟨row, mem_cons_self row contents, isRow⟩
    have rearranged : contents + ((row :: rest : List (Row V)) : Rows V) =
        row ::ₘ contents + (rest : Rows V) := by
      rw [← cons_coe, add_cons, Multiset.cons_add]
    rw [rearranged]
    exact ih added

theorem HoldsRows.removeAll (rows : List (Row V))
    (holds : HoldsRows (contents + (rows : Rows V)) weak) :
    let after := rows.foldl (fun weak row => weakRemove row weak) weak
    after.1 = weak.1 ∧ after.2.keyLen = weak.2.keyLen ∧ HoldsRows contents after ∧
      ∀ key, (after.2.view key).isSome = true → (weak.2.view key).isSome = true := by
  induction rows generalizing weak with
  | nil =>
    simpa using holds
  | cons row rest ih =>
    rw [← cons_coe, add_cons] at holds
    have mem : row ∈ row ::ₘ (contents + (rest : Rows V)) := mem_cons_self row _
    have removed := holds.remove mem
    rw [Multiset.erase_cons_head] at removed
    obtain ⟨columns, keyLen, holdsAfter, keys⟩ := ih removed
    exact ⟨columns, keyLen.trans (keyLen_onWeak (.negative row) weak), holdsAfter,
      fun key filled => weakRemove_isSome holds mem (keys key filled)⟩

/-! ## The steps -/

variable {world next : MemoryWorld V} {order : BagOrder V} {input : MemoryStep V}

theorem WeakInvariant.of_step (invariant : WeakInvariant width world)
    (admissible : world.Admissible width input) (stepped : world.step order input = .ok (⟨⟩, next))
    (isPartial : ∀ single ∈ next.memory.state, single.isPartial = true)
    (isExact : ∀ weak ∈ next.memory.weakIndices,
      WeakExact (next.table.filter fun row => next.memory.fills row = true) weak) :
    WeakInvariant width next := by
  obtain ⟨_, following, steppedTo, inv⟩ := step_maintains order invariant.maintains admissible
  rw [stepped] at steppedTo
  obtain ⟨_, rfl⟩ := ok_pair_inj steppedTo
  exact ⟨inv, isPartial, isExact⟩

theorem WeakExact.of_fills
    (isExact : WeakExact (table.filter fun row => memory.fills row = true) weak)
    (same : ∀ row ∈ table, changed.fills row = true ↔ memory.fills row = true) :
    WeakExact (table.filter fun row => changed.fills row = true) weak := by
  rw [filter_congr same]
  exact isExact

theorem isPartial_set (isPartial : ∀ single ∈ memory.state, single.isPartial = true)
    (afterPartial : after.isPartial = true) :
    ∀ single ∈ memory.state.set idx after, single.isPartial = true := by
  intro single mem
  rcases List.mem_or_eq_of_mem_set mem with old | rfl
  · exact isPartial single old
  · exact afterPartial

/-- The rows evicted with a key are those that no other index keeps. -/
theorem filter_evicted (inv : Maintains width table memory)
    (here : memory.state[idx]? = some single)
    {rows : Rows V} (emptied : SingleState.Emptied single gone after)
    (isRows : SingleState.IsRowsOf single gone rows)
    (state : changed.state = memory.state.set idx after)
    (once : ∀ row ∈ table, (single.state.view (row.clonedIndices single.columns)).isSome = true →
      gone (row.clonedIndices single.columns) →
      table.count row = 1 ∧ ¬ memory.FillsWithout single.index gone row) :
    (table.filter fun row => memory.fills row = true) =
      (table.filter fun row => changed.fills row = true) + rows := by
  have complete := inv.complete single (mem_of_getElem? here)
  have fillsAfter := fills_emptied inv.distinct here emptied state
  ext row
  rw [Multiset.count_add]
  by_cases evicted : row ∈ rows
  · obtain ⟨point, held, isGone, view, inHeld⟩ := (isRows.2 row).mp evicted
    have matched := inHeld
    rw [complete.agrees point held (answer_of_view view)] at matched
    obtain ⟨inTable, rfl⟩ := mem_filter.mp matched
    obtain ⟨single_, notOther⟩ := once row inTable (by rw [view]; rfl) isGone
    have fills : memory.fills row = true :=
      MemoryState.fills_iff.mpr ⟨single, mem_of_getElem? here, by rw [view]; rfl⟩
    have notFills : ¬ changed.fills row = true := fun filled => notOther ((fillsAfter row).mp filled)
    rw [count_filter, count_filter, if_pos fills, if_neg notFills,
      Multiset.count_eq_one_of_mem isRows.1 evicted]
    exact single_
  · rw [count_eq_zero_of_notMem evicted, add_zero]
    by_cases inTable : row ∈ table
    · have same : memory.fills row = true ↔ changed.fills row = true := by
        rw [fillsAfter, fills_iff]
        constructor
        · rintro ⟨other, inState, filled⟩
          refine ⟨other, inState, filled, fun isIndex isGone => evicted ?_⟩
          have isSingle : other = single := List.inj_on_of_nodup_map inv.distinct inState
            (mem_of_getElem? here) isIndex
          subst isSingle
          obtain ⟨held, view⟩ := isSome_iff_exists.mp filled
          refine (isRows.2 row).mpr ⟨_, held, isGone, view, ?_⟩
          rw [complete.agrees _ held (answer_of_view view)]
          exact mem_filter.mpr ⟨inTable, rfl⟩
        · rintro ⟨other, inState, filled, _⟩
          exact ⟨other, inState, filled⟩
      rw [count_filter, count_filter]
      simp [same]
    · rw [count_eq_zero_of_notMem (fun stored => inTable (mem_filter.mp stored).1),
        count_eq_zero_of_notMem fun stored => inTable (mem_filter.mp stored).1]

theorem addKey_tagged (order : BagOrder V) (memory : MemoryState V) (index : Index)
    (tags : List Tag) :
    ∃ after, memory.addKey order index (some tags) = .ok after ∧
      after.weakIndices = memory.weakIndices ∧
      (after.state = memory.state ∨ ∃ new : SingleState V, after.state = memory.state ++ [new] ∧
        new.isPartial = true ∧ ∀ key, new.state.view key = none) := by
  cases found : memory.stateFor index.columns index.indexType with
  | some idx =>
    refine ⟨{ memory with byTag := memory.assignTags tags idx }, ?_, rfl, .inl rfl⟩
    simp [MemoryState.addKey, found]
  | none =>
    obtain ⟨new, created, _, isPartial, _, answers⟩ := @new_spec V _ index true
    refine ⟨{ memory with
      state := memory.state ++ [new]
      byTag := memory.assignTags tags memory.state.length }, ?_, rfl,
      .inr ⟨new, rfl, isPartial, fun key => ?_⟩⟩
    · simp [MemoryState.addKey, found, created]
    · rw [← answer_eq_view isPartial, answers, if_pos rfl]

section

variable (inv : WeakInvariant width world) {tag : Tag} {index : Index}

include inv

namespace WeakInvariant

/-- Updates keep the weak indices exact. -/
theorem update {batch : List (Record V)}
    (admissible : world.Admissible width (.update batch))
    (keeps : world.KeepsWeak (.update batch)) :
    ∃ next, world.step order (.update batch) = .ok (⟨⟩, next) ∧ WeakInvariant width next := by
  obtain ⟨table, applied⟩ := isSome_iff_exists.mp admissible.1
  obtain ⟨kept, after, processed, midway⟩ := processRecords_invariant none batch
    (WeakMidway world.memory world.table)
    (by
      intro done record rest cur whole midway
      rw [ite_self]
      rw [whole] at applied
      exact midway.processed applied)
    (by
      refine ⟨inv.isPartial, fun _ => rfl, world.table, rfl, fun weak mem => ?_⟩
      have isExact := inv.exact_ weak mem
      refine ⟨mem_map.mpr ⟨weak, mem, rfl⟩, isExact.keyLen, isExact.holds, fun key filled => ?_⟩
      obtain ⟨row, stored, hasKey⟩ := exists_of_isSome isExact.holds isExact.noEmpty filled
      obtain ⟨inTable, fills⟩ := mem_filter.mp stored
      exact ⟨row, .inl inTable, fills, hasKey⟩)
  have stepped : world.step order (.update batch) = .ok (⟨⟩, { memory := after, table }) := by
    simp [step, applied, processed]
  refine ⟨_, stepped, inv.of_step admissible stepped midway.isPartial fun weak mem => ?_⟩
  obtain ⟨now, reached, weakNow⟩ := midway.midway
  obtain rfl : table = now := some.inj (applied.symm.trans reached)
  obtain ⟨known, keyLen, holds, keys⟩ := weakNow weak mem
  simp only [midway.fills]
  refine ⟨keyLen, holds, noEmptyKeys_of_rows holds fun key filled => ?_⟩
  obtain ⟨row, came, fills, hasKey⟩ := keys key filled
  obtain ⟨origin, inWeak, sameColumns⟩ := mem_map.mp known
  obtain ⟨other, inTable, otherFills, sameKey⟩ := keeps origin inWeak table applied row came fills
  rw [sameColumns] at sameKey
  exact ⟨other, mem_filter.mpr ⟨inTable, otherFills⟩, sameKey.trans hasKey⟩

/-- So do replays of keys whose rows were not stored. -/
theorem replay {key : KeyComparison V} {rows : List (Row V)}
    (admissible : world.Admissible width (.replay key tag rows))
    (keeps : world.KeepsWeak (.replay key tag rows)) :
    ∃ next, world.step order (.replay key tag rows) = .ok (⟨⟩, next) ∧
      WeakInvariant width next := by
  obtain ⟨single, named, isPartial, accepts, unfilled, replayed⟩ := id admissible
  obtain ⟨idx, byTag, here⟩ := taggedIndex_spec named
  obtain ⟨marked, kept, after, filled, ok, processed, state, _, weakIs, sameIndex,
    filledPartial, _, answers⟩ :=
    replay_spec inv.maintains isPartial accepts unfilled replayed byTag here
  have stepped : world.step order (.replay key tag rows) =
      .ok (⟨⟩, { world with memory := after }) := by
    simp [step, ok, processed]
  refine ⟨_, stepped, inv.of_step admissible stepped ?_ fun weak mem => ?_⟩
  · rw [state]
    exact isPartial_set inv.isPartial filledPartial
  · rw [weakIs, foldl_weakIndices weakInsert fun _ _ => rfl] at mem
    obtain ⟨before, inWeak, rfl⟩ := mem_map.mp mem
    have added := (inv.exact_ before inWeak).insertAll rows
    -- No row of the key was stored, so that the stored rows and the new ones are disjoint.
    have unstored := keeps (List.ne_nil_of_mem inWeak)
    have both : (world.table.filter fun row => after.fills row = true) =
        (world.table.filter fun row => world.memory.fills row = true) + (rows : Rows V) := by
      rw [replayed, rowsFor, Multiset.filter_add_filter]
      have neither : (world.table.filter fun row => world.memory.fills row = true ∧
          key.contains (row.clonedIndices single.columns) = true) = 0 := by
        refine Multiset.filter_eq_nil.mpr ?_
        rintro row inTable ⟨fills, inKey⟩
        have inRows : row ∈ rows := by
          rw [← Multiset.mem_coe, replayed]
          exact mem_filter.mpr ⟨inTable, inKey⟩
        rw [unstored row inRows] at fills
        contradiction
      rw [neither, add_zero]
      refine filter_congr fun row _ => ?_
      exact fills_filled inv.maintains.distinct here isPartial filledPartial sameIndex answers state
    rw [both]
    exact added

theorem markHole {key : KeyComparison V} (admissible : world.Admissible width (.markHole key tag))
    (keeps : world.KeepsWeak (.markHole key tag)) :
    ∃ next, world.step order (.markHole key tag) = .ok (⟨⟩, next) ∧ WeakInvariant width next := by
  obtain ⟨single, named, isPartial, accepts⟩ := id admissible
  obtain ⟨idx, byTag, here⟩ := taggedIndex_spec named
  have complete := inv.maintains.complete single (mem_of_getElem? here)
  obtain ⟨after, marked, emptied⟩ := markHole_spec complete.wellFormed accepts
  have holed : world.memory.markHole key tag = .ok _ := onTagged_eq byTag here marked
  have stepped : world.step order (.markHole key tag) = .ok (⟨⟩, { world with
      memory := { world.memory with state := world.memory.state.set idx after } }) := by
    simp [step, holed]
  refine ⟨_, stepped, inv.of_step admissible stepped ?_ fun weak mem => ?_⟩
  · exact isPartial_set inv.isPartial (emptied.isPartial.trans isPartial)
  · refine (inv.exact_ weak mem).of_fills fun row inTable => ?_
    rw [fills_emptied inv.maintains.distinct here emptied rfl]
    constructor
    · rintro ⟨other, inState, filled, _⟩
      exact MemoryState.fills_iff.mpr ⟨other, inState, filled⟩
    · exact keeps (List.ne_nil_of_mem mem) single named row inTable

/-- So do evictions of rows that are stored once, under no other filled key. -/
theorem evictKeys {keys : List (KeyComparison V)}
    (admissible : world.Admissible width (.evictKeys tag keys))
    (keeps : world.KeepsWeak (.evictKeys tag keys)) :
    ∃ next, world.step order (.evictKeys tag keys) = .ok (⟨⟩, next) ∧ WeakInvariant width next := by
  cases byTag : world.memory.byTag tag with
  | none =>
    refine ⟨world, ?_, inv⟩
    simp [step, MemoryState.evictKeys, byTag]
  | some idx =>
    obtain ⟨single, here⟩ : ∃ single, world.memory.state[idx]? = some single :=
      ⟨_, List.getElem?_eq_getElem (inv.maintains.tags tag idx byTag)⟩
    have named : world.memory.taggedIndex tag = some single := by
      rw [MemoryState.taggedIndex, byTag, bind_some, here]
    obtain ⟨isPartial, accepted⟩ := admissible single named
    have complete := inv.maintains.complete single (mem_of_getElem? here)
    obtain ⟨rows, after, evicted, emptied, isRows⟩ :=
      evictKeys_spec complete.wellFormed (Complete.keyedRows complete) accepted
    have stepped : world.step order (.evictKeys tag keys) = .ok (⟨⟩, { world with
        memory := { world.memory with
          state := world.memory.state.set idx after }.removeAllWeak order rows }) := by
      simp [step, MemoryState.evictKeys, byTag, here, evicted]
    have state := (removeAllWeak_strict order
      { world.memory with state := world.memory.state.set idx after } rows).1
    refine ⟨_, stepped, inv.of_step admissible stepped ?_ fun weak mem => ?_⟩
    · rw [state]
      exact isPartial_set inv.isPartial (emptied.isPartial.trans isPartial)
    · rw [MemoryState.removeAllWeak, foldl_weakIndices weakRemove fun _ _ => rfl] at mem
      obtain ⟨before, inWeak, rfl⟩ := mem_map.mp mem
      have isExact := inv.exact_ before inWeak
      have condition := keeps before inWeak single named
      have split := filter_evicted inv.maintains here emptied isRows state
        fun row inTable filled isGone =>
          ⟨(condition row inTable filled isGone).1, (condition row inTable filled isGone).2.1⟩
      have holds := isExact.holds
      rw [split] at holds
      obtain ⟨columns, keyLen, holdsAfter, keysAfter⟩ :=
        HoldsRows.removeAll (order.list rows) (by rw [order.list_coe]; exact holds)
      refine ⟨by rw [keyLen, columns]; exact isExact.keyLen, holdsAfter,
        noEmptyKeys_of_rows holdsAfter fun key filled => ?_⟩
      rw [columns]
      obtain ⟨row, stored, hasKey⟩ :=
        exists_of_isSome isExact.holds isExact.noEmpty (keysAfter key filled)
      rw [split] at stored
      rcases Multiset.mem_add.mp stored with stays | isEvicted
      · exact ⟨row, stays, hasKey⟩
      · obtain ⟨point, held, isGone, view, inHeld⟩ := (isRows.2 row).mp isEvicted
        rw [complete.agrees point held (answer_of_view view)] at inHeld
        obtain ⟨inTable, rfl⟩ := mem_filter.mp inHeld
        obtain ⟨_, _, other, otherInTable, remains, sameKey⟩ :=
          condition row inTable (by rw [view]; rfl) isGone
        refine ⟨other, mem_filter.mpr ⟨otherInTable, ?_⟩, sameKey.trans hasKey⟩
        exact (fills_emptied inv.maintains.distinct here emptied state other).mpr remains

/-- A new index leaves the weak ones exact. -/
theorem addKey {tags : Option (List Tag)}
    (admissible : world.Admissible width (.addKey index tags))
    (keeps : world.KeepsWeak (.addKey index tags)) :
    ∃ next, world.step order (.addKey index tags) = .ok (⟨⟩, next) ∧ WeakInvariant width next := by
  obtain ⟨tags, rfl⟩ := isSome_iff_exists.mp keeps
  obtain ⟨after, added, weakIs, state⟩ := addKey_tagged order world.memory index tags
  have stepped : world.step order (.addKey index (some tags)) =
      .ok (⟨⟩, { world with memory := after }) := by
    simp [step, added]
  refine ⟨_, stepped, inv.of_step admissible stepped ?_ fun weak mem => ?_⟩
  · rcases state with same | ⟨new, appended, isPartial, _⟩
    · rw [same]
      exact inv.isPartial
    · rw [appended]
      intro single mem
      rcases mem_append.mp mem with old | isNew
      · exact inv.isPartial single old
      · rw [mem_singleton.mp isNew]
        exact isPartial
  · rw [weakIs] at mem
    refine (inv.exact_ weak mem).of_fills fun row _ => ?_
    rcases state with same | ⟨new, appended, _, holes⟩
    · rw [fills, fills, same]
    · rw [fills_iff, fills_iff, appended]
      simp [holes]

theorem addWeakKey (keeps : world.KeepsWeak (.addWeakKey index)) :
    ∃ next, world.step order (.addWeakKey index) = .ok (⟨⟩, next) ∧ WeakInvariant width next := by
  have stepped : world.step order (.addWeakKey index) =
      .ok (⟨⟩, { world with memory := world.memory.addWeakKey index }) := rfl
  have admissible : world.Admissible width (.addWeakKey index) := trivial
  refine ⟨_, stepped, inv.of_step admissible stepped inv.isPartial fun weak mem => ?_⟩
  rcases mem_append.mp mem with old | isNew
  · exact inv.exact_ weak (List.mem_of_mem_filter old)
  · have nothing := stored_eq inv.maintains
    rw [show world.stored = 0 from keeps] at nothing
    rw [mem_singleton.mp isNew]
    refine ⟨(Prod.mk.inj (shape_ofIndex index)).2, fun key => ?_, fun key empty => ?_⟩
    · change ((ofIndex index : KeyedState V).view key).getD 0 =
        matching (world.table.filter fun row => world.memory.fills row = true) _ key
      rw [view_ofIndex, ← nothing]
      rfl
    · rw [view_ofIndex] at empty
      contradiction

/-- What `lookup_weak` returns from an exact weak index. -/
theorem lookupWeak {columns : List Nat}
    (known : columns ∈ world.memory.weakIndices.map Prod.fst) {key : Key V}
    (length : key.length = columns.length) :
    world.memory.lookupWeak columns key = .ok (if matching world.stored columns key = 0 then none
        else some (matching world.stored columns key)) := by
  obtain ⟨mem, inWeak, sameColumns⟩ := mem_map.mp known
  obtain ⟨weak, found⟩ : ∃ weak, (world.memory.weakIndices.find? fun weak => weak.1 = columns) =
      some weak := by
    rw [← isSome_iff_exists, List.find?_isSome]
    exact ⟨mem, inWeak, decide_eq_true sameColumns⟩
  obtain rfl : weak.1 = columns := by simpa using List.find?_some found
  have isExact := inv.exact_ weak (List.mem_of_find?_eq_some found)
  rw [← stored_eq inv.maintains] at isExact
  rw [← isExact.keyLen] at length
  simp only [MemoryState.lookupWeak, found, weak.2.lookup_eq length, ← isExact.holds key]
  cases view : weak.2.view key with
  | none => simp
  | some rows =>
    have notEmpty : rows ≠ 0 := by
      rintro rfl
      exact isExact.noEmpty key view
    simp [notEmpty]

end WeakInvariant

end

theorem MemoryWorld.step_keepsWeak (inv : WeakInvariant width world)
    (condition : world.Admissible width input ∧ world.KeepsWeak input) :
    ∃ output next, world.step order input = .ok (output, next) ∧ WeakInvariant width next := by
  obtain ⟨admissible, keeps⟩ := condition
  refine ⟨⟨⟩, ?_⟩
  cases input with
  | addKey index tags => exact inv.addKey admissible keeps
  | addWeakKey index => exact inv.addWeakKey keeps
  | update batch => exact inv.update admissible keeps
  | replay key tag rows => exact inv.replay admissible keeps
  | markHole key tag => exact inv.markHole admissible keeps
  | evictKeys tag keys => exact inv.evictKeys admissible keeps
  | evictBytes eviction => exact keeps.elim

end

/-- **Weak indices are exact.** In every run whose steps are admissible and meet
the condition for weak indices, no step fails, and in the state reached
`lookup_weak` returns the rows with the key that some filled key of a strict
index stores, each as often as the table has it, and nothing if there are none. -/
theorem run_weakExact (order : BagOrder V) (width : Nat) {steps : List (MemoryStep V)}
    (along : Along (MemoryWorld.step order)
      (fun world input => world.Admissible width input ∧ world.KeepsWeak input) {} steps) :
    ∃ trace world, run (MemoryWorld.step order) {} steps = .ok (trace, world) ∧
      ∀ columns ∈ world.memory.weakIndices.map Prod.fst, ∀ key : Key V,
        key.length = columns.length →
          world.memory.lookupWeak columns key = .ok
            (if matching world.stored columns key = 0 then none
              else some (matching world.stored columns key)) := by
  have start : WeakInvariant width ({} : MemoryWorld V) :=
    ⟨Maintains.empty width, fun _ member => absurd member List.not_mem_nil,
      fun _ member => absurd member List.not_mem_nil⟩
  obtain ⟨trace, world, ran, invariant⟩ := run_along (MemoryWorld.step order)
    (WeakInvariant width)
    (fun _ _ invariant condition => MemoryWorld.step_keepsWeak invariant condition)
    start along
  exact ⟨trace, world, ran, fun _ known _ length => invariant.lookupWeak known length⟩

/-- A row is replayed into two strict indices. -/
def replayTwice : List (MemoryStep ℕ) :=
  [.addKey ⟨.hashMap, [0]⟩ (some [7]), .addKey ⟨.hashMap, [1]⟩ (some [8]),
    .addWeakKey ⟨.hashMap, [2]⟩, .update [.positive [.value 1, .value 2, .value 3]],
    .replay (.equal [.value 1]) 7 [[.value 1, .value 2, .value 3]],
    .replay (.equal [.value 2]) 8 [[.value 1, .value 2, .value 3]]]

/-- The table has the row once, and the weak index twice. -/
theorem replayTwice_duplicates :
    ∃ trace world, run (MemoryWorld.step .sorted) {} replayTwice = .ok (trace, world) ∧
      world.table = {[.value 1, .value 2, .value 3]} ∧
      world.memory.lookupWeak [2] [.value 3] =
        .ok (some {[.value 1, .value 2, .value 3], [.value 1, .value 2, .value 3]}) :=
  ⟨_, _, rfl, rfl, rfl⟩

/-- Two rows with one weak key are replayed, and one is evicted. -/
def evictOne : List (MemoryStep ℕ) :=
  [.addKey ⟨.hashMap, [0]⟩ (some [7]), .addWeakKey ⟨.hashMap, [1]⟩,
    .update [.positive [.value 1, .value 3], .positive [.value 2, .value 3]],
    .replay (.equal [.value 1]) 7 [[.value 1, .value 3]],
    .replay (.equal [.value 2]) 7 [[.value 2, .value 3]],
    .evictKeys 7 [.equal [.value 1]]]

theorem forall_of_eq_some {α : Type u} {found : Option α} {value : α} {property : α → Prop}
    (isFound : found = some value) (holds : property value) :
    ∀ other, found = some other → property other := by
  intro other isOther
  rw [isFound] at isOther
  rw [← some.inj isOther]
  exact holds

theorem evictOne_evicts {world : MemoryWorld ℕ} {single : SingleState ℕ}
    (state : world.memory.state = [single]) (columns : single.columns = [0])
    (named : world.memory.taggedIndex 7 = some single)
    (filled : (single.state.view [.value 2]).isSome = true)
    (table : world.table = {[.value 2, .value 3], [.value 1, .value 3]})
    (weakColumns : world.memory.weakIndices.map Prod.fst = [[1]]) :
    world.KeepsWeak (.evictKeys 7 [.equal [.value 1]]) := by
  intro weak inWeak
  have isWeak : weak.1 = [1] := by
    rw [← mem_singleton, ← weakColumns]
    exact List.mem_map_of_mem inWeak
  refine forall_of_eq_some named ?_
  intro remains row inTable _ isGone
  obtain ⟨key, isKey, inKey⟩ := isGone
  rw [mem_singleton.mp isKey, KeyComparison.contains_equal, columns] at inKey
  rw [table] at inTable ⊢
  have isRow : row = [.value 1, .value 3] := by
    rcases Multiset.mem_cons.mp inTable with rfl | isFirst
    · exact absurd inKey (by decide)
    · exact mem_singleton.mp isFirst
  subst isRow
  refine ⟨by decide, ?_, [.value 2, .value 3], by decide, ?_, by rw [isWeak]; decide⟩
  · rintro ⟨other, mem, _, notGone⟩
    rw [state, mem_singleton] at mem
    subst mem
    rw [columns] at notGone
    exact notGone rfl ⟨_, mem_singleton.mpr rfl, KeyComparison.contains_equal.mpr inKey⟩
  · refine ⟨single, by rw [state]; exact mem_singleton.mpr rfl, ?_, ?_⟩
    · rw [columns]
      exact filled
    · rw [columns]
      rintro _ ⟨other, isOther, contains⟩
      rw [mem_singleton.mp isOther] at contains
      exact absurd contains (by decide)

theorem evictOne_condition : Along (step .sorted)
    (fun world input => world.Admissible 2 input ∧ world.KeepsWeak input) {} evictOne := by
  refine along_cons _ ⟨⟨by decide, by decide, fun untagged => by contradiction⟩, rfl⟩ rfl ?_
  refine along_cons _ ⟨trivial, rfl⟩ rfl ?_
  refine along_cons _ ⟨⟨rfl, by decide⟩, ?_⟩ rfl ?_
  · -- No key is filled yet.
    intro weak _ after _ row _ fills
    exact absurd (show false = true from fills) Bool.false_ne_true
  refine along_cons _ ⟨⟨_, rfl, rfl, rfl, fun point inKey => ?_, rfl⟩, fun _ => by decide⟩ rfl ?_
  · rw [KeyComparison.contains_equal.mp inKey]
    rfl
  refine along_cons _ ⟨⟨_, rfl, rfl, rfl, fun point inKey => ?_, rfl⟩, fun _ => by decide⟩ rfl ?_
  · rw [KeyComparison.contains_equal.mp inKey]
    rfl
  refine along_cons _ ⟨forall_of_eq_some rfl ⟨rfl, fun key mem => ?_⟩,
    evictOne_evicts rfl rfl rfl rfl rfl rfl⟩ rfl trivial
  rw [mem_singleton.mp mem]
  rfl

theorem run_weakExact_evictOne :
    ∃ trace world, run (MemoryWorld.step .sorted) {} evictOne = .ok (trace, world) ∧
      ∀ columns ∈ world.memory.weakIndices.map Prod.fst, ∀ key : Key ℕ,
        key.length = columns.length →
          world.memory.lookupWeak columns key = .ok
            (if matching world.stored columns key = 0 then none
              else some (matching world.stored columns key)) :=
  run_weakExact .sorted 2 evictOne_condition

end ReadySet.DataflowState
