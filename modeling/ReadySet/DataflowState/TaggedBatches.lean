import ReadySet.DataflowState.Completeness

/-!
Owns what a tagged batch does to the strict indices of a partial state. Insertions go
to the tag's index, but removals go to every index (`processRecords_state`). So a batch
leaves the other indices alone exactly if these hold none of the rows it removes, nor a
single row under the key of one, which is taken without being compared.
-/

namespace ReadySet.DataflowState

open Data Library Dataflow KeyedState List Function Option

universe u

variable {V : Type u} [LinearOrder V]

/-! ## One index -/

/-- What a record does to an index, given whether it is the one of the tag. -/
def onTagged (tagged : Bool) (single : SingleState V) : Record V → SingleState V
  | .positive row => if tagged then (single.insertRow row).2 else single
  | .negative row => (single.removeRow row).2

/-- What a record does to the rows of its key. -/
def changeRows (tagged : Bool) (rows : Rows V) : Record V → Rows V
  | .positive row => if tagged then row ::ₘ rows else rows
  | .negative row => (doRemove row rows).2

def recordsAt (columns : List Nat) (key : Key V) (records : List (Record V)) : List (Record V) :=
  records.filter fun record => record.value.clonedIndices columns = key

section

variable {tagged : Bool} {single : SingleState V} {record : Record V} {records : List (Record V)}
  {row : Row V} {rows after : Rows V}

theorem onTagged_columns : (onTagged tagged single record).columns = single.columns := by
  cases record with
  | positive row => cases tagged <;> rfl
  | negative row => rfl

theorem onTagged_view (filled : tagged = true →
      (single.state.view (record.value.clonedIndices single.columns)).isSome = true) :
    (onTagged tagged single record).state.view =
      update single.state.view (record.value.clonedIndices single.columns)
        ((single.state.view (record.value.clonedIndices single.columns)).map
          (changeRows tagged · record)) := by
  cases record with
  | positive row =>
    cases tagged with
    | false => simp [onTagged, changeRows]
    | true =>
      obtain ⟨rows, held⟩ := isSome_iff_exists.mp (filled rfl)
      rw [Signed.value_positive] at held
      refine (insert_spec single.isPartial).2.trans ?_
      simp [held, changeRows]
  | negative row => exact remove_spec.2

/-- Filled keys stay filled, and the records of each change its rows in turn. -/
theorem foldl_onTagged_view (filled : ∀ record ∈ records, tagged = true →
      (single.state.view (record.value.clonedIndices single.columns)).isSome = true) (key : Key V) :
    (records.foldl (onTagged tagged) single).state.view key =
      (single.state.view key).map
        ((recordsAt single.columns key records).foldl (changeRows tagged)) := by
  induction records generalizing single with
  | nil => simp [recordsAt]
  | cons record rest ih =>
    have viewed := onTagged_view (filled record mem_cons_self)
    rw [foldl_cons, ih fun other mem isTagged => ?_, onTagged_columns, viewed]
    · rw [recordsAt, recordsAt]
      by_cases same : key = record.value.clonedIndices single.columns
      · simp [same, comp_def]
      · simp [same, Ne.symm same]
    · rw [onTagged_columns, viewed, update_apply]
      split
      case isTrue same =>
        rw [isSome_map]
        exact filled record mem_cons_self isTagged
      case isFalse => exact filled other (mem_cons_of_mem record mem) isTagged

theorem doRemove_le (row : Row V) (rows : Rows V) : (doRemove row rows).2 ≤ rows := by
  unfold doRemove
  split_ifs
  · exact Multiset.zero_le rows
  · exact Multiset.erase_le row rows
  · exact le_rfl

theorem doRemove_eq_self_iff : (doRemove row rows).2 = rows ↔ rows.card ≠ 1 ∧ row ∉ rows := by
  unfold doRemove
  split_ifs with sole mem
  · refine iff_of_false (fun empty => ?_) fun both => both.1 sole
    simp [← empty] at sole
  · exact iff_of_false (Multiset.erase_lt.mpr mem).ne fun both => both.2 mem
  · exact iff_of_true rfl ⟨sole, mem⟩

theorem foldl_changeRows_le (rows : Rows V) : records.foldl (changeRows false) rows ≤ rows := by
  induction records generalizing rows with
  | nil => exact le_rfl
  | cons record rest ih =>
    refine (ih _).trans ?_
    cases record with
    | positive row => exact le_rfl
    | negative row => exact doRemove_le row rows

/-- Rows only go, so that they stay exactly if no record takes any. -/
theorem foldl_changeRows_eq_self_iff : records.foldl (changeRows false) rows = rows ↔
    ∀ row, .negative row ∈ records → rows.card ≠ 1 ∧ row ∉ rows := by
  induction records with
  | nil => simp
  | cons record rest ih =>
    cases record with
    | positive row => simpa [changeRows] using ih
    | negative row =>
      constructor
      · intro same
        have kept : (doRemove row rows).2 = rows := (doRemove_le row rows).antisymm <|
          same.symm.le.trans (foldl_changeRows_le (doRemove row rows).2)
        rw [foldl_cons, changeRows, kept, ih] at same
        intro other mem
        rcases mem_cons.mp mem with isRow | later
        · exact Signed.negative.inj isRow ▸ doRemove_eq_self_iff.mp kept
        · exact same other later
      · intro untouched
        rw [foldl_cons, changeRows, doRemove_eq_self_iff.mpr (untouched row mem_cons_self), ih]
        exact fun other mem => untouched other (mem_cons_of_mem _ mem)

theorem foldl_changeRows_of_applyAll (applied : applyAll rows records = some after) :
    records.foldl (changeRows true) rows = after := by
  refine applyAll_induction applied rfl (fun _ _ _ ih => ih) ?_
  intro rows row rest mem ih
  rw [foldl_cons, changeRows, doRemove_of_mem mem]
  exact ih

end

/-! ## The frame of a batch -/

/-- The rows of every filled key change by the records of the key. -/
def SingleState.ChangesBy (records : List (Record V)) (before after : SingleState V) : Prop :=
  ∀ key, after.state.view key = (before.state.view key).bind fun rows =>
    applyAll rows (recordsAt before.columns key records)

/-- The batch only removes rows that the index holds when their records come. -/
def SingleState.Applies (records : List (Record V)) (single : SingleState V) : Prop :=
  ∀ key rows, single.state.view key = some rows →
    (applyAll rows (recordsAt single.columns key records)).isSome = true

/-- Under the keys of the removed rows there is neither the row nor a single row. -/
def SingleState.Untouched (records : List (Record V)) (single : SingleState V) : Prop :=
  ∀ row, .negative row ∈ records → ∀ rows,
    single.state.view (row.clonedIndices single.columns) = some rows → rows.card ≠ 1 ∧ row ∉ rows

section

variable {single : SingleState V} {records : List (Record V)}

theorem changesBy_iff (filled : ∀ record ∈ records,
      (single.state.view (record.value.clonedIndices single.columns)).isSome = true) :
    single.ChangesBy records (records.foldl (onTagged true) single) ↔ single.Applies records := by
  have viewed := @foldl_onTagged_view V _ true single records fun record mem _ => filled record mem
  refine forall_congr' fun key => ?_
  rw [viewed]
  cases held : single.state.view key with
  | none => simp
  | some rows =>
    rw [map_some, bind_some]
    constructor
    · rintro applied _ ⟨⟩
      rw [← applied, isSome_some]
    · intro applies
      obtain ⟨after, applied⟩ := isSome_iff_exists.mp (applies rows rfl)
      rw [applied, foldl_changeRows_of_applyAll applied]

theorem unchanged_iff :
    (records.foldl (onTagged false) single).state.view = single.state.view ↔
      single.Untouched records := by
  rw [funext_iff]
  simp only [@foldl_onTagged_view V _ false _ _ fun _ _ untagged => nomatch untagged]
  constructor
  · intro same row mem rows held
    have kept := same (row.clonedIndices single.columns)
    rw [held, map_some, some.injEq, foldl_changeRows_eq_self_iff] at kept
    exact kept row (mem_filter.mpr ⟨mem, by simp⟩)
  · intro untouched key
    cases held : single.state.view key with
    | none => rfl
    | some rows =>
      rw [map_some, foldl_changeRows_eq_self_iff.mpr fun row mem => ?_]
      obtain ⟨listed, isKey⟩ := mem_filter.mp mem
      exact untouched row listed rows ((congrArg _ (of_decide_eq_true isKey)).trans held)

variable {memory : MemoryState V} {tag : Tag} {idx : Nat}

/-- A tagged batch adds rows to its own index and removes them from all. -/
theorem processRecords_state (isPartial : memory.isPartial = true)
    (byTag : memory.byTag tag = some idx) (here : memory.state[idx]? = some single) :
    ∃ kept after, memory.processRecords records (some tag) = .ok (kept, after) ∧
      ∀ other, after.state[other]? =
        memory.state[other]?.map (records.foldl (onTagged (other = idx))) := by
  obtain ⟨kept, after, processed, states, -⟩ := processRecords_invariant (some tag) records
    (fun done cur => (∀ other, cur.state[other]? =
      memory.state[other]?.map (done.foldl (onTagged (other = idx)))) ∧ cur.byTag = memory.byTag)
    (by
      rintro done record rest cur - ⟨states, sameTags⟩
      rw [if_pos isPartial]
      cases record with
      | positive row =>
        have hereNow := states idx
        rw [here] at hereNow
        simp only [MemoryState.processRecord, MemoryState.insert, sameTags, byTag, hereNow]
        refine ⟨_, _, rfl, fun other => ?_, by split <;> rfl⟩
        simp only [MemoryState.insertWeak, apply_ite MemoryState.state, ite_self]
        by_cases same : other = idx
        · rw [same, List.getElem?_set_self (List.getElem?_eq_some_iff.mp hereNow).1, here]
          simp [onTagged]
        · rw [getElem?_set_ne (Ne.symm same), states]
          simp [same, onTagged]
      | negative row =>
        simp only [MemoryState.processRecord]
        refine ⟨_, _, rfl, fun other => ?_, by split <;> exact sameTags⟩
        simp only [MemoryState.removeWeak, apply_ite MemoryState.state, ite_self]
        rw [getElem?_map, states]
        simp [onTagged, comp_def])
    ⟨by simp, rfl⟩
  exact ⟨kept, after, processed, states⟩

/-- A tagged batch on filled keys changes the rows of its index by the batch and leaves
the other indices alone exactly if it applies to the index and the others hold none of the
rows that it removes, nor a single row under the key of one. -/
theorem processRecords_framed_iff (isPartial : memory.isPartial = true)
    (byTag : memory.byTag tag = some idx) (here : memory.state[idx]? = some single)
    (filled : ∀ record ∈ records,
      (single.state.view (record.value.clonedIndices single.columns)).isSome = true) :
    ∃ kept after, memory.processRecords records (some tag) = .ok (kept, after) ∧
      ((∃ changed, after.state[idx]? = some changed ∧ single.ChangesBy records changed) ∧
          (∀ other, other ≠ idx → after.state[other]?.map (fun index => index.state.view) =
            memory.state[other]?.map fun index => index.state.view) ↔
        single.Applies records ∧ ∀ other, other ≠ idx → ∀ index,
          memory.state[other]? = some index → index.Untouched records) := by
  obtain ⟨kept, after, processed, states⟩ := processRecords_state isPartial byTag here
  refine ⟨kept, after, processed, and_congr ?_ (forall₂_congr fun other ne => ?_)⟩
  · rw [states, here, ← changesBy_iff filled]
    simp
  · rw [states]
    cases memory.state[other]? with
    | none => simp
    | some index => simp [ne, ← unchanged_iff]

end

/-! ## A batch that takes a row from another index -/

/-- Partial indices on the two columns of a row, both with the row. -/
def bothHold (row : Row ℕ) : MemoryState ℕ where
  state := [0, 1].map fun column =>
    ⟨⟨.hashMap, [column]⟩, .hash 1 (AList.insert (row.clonedIndices [column]) {row} ∅), true, 1⟩
  byTag tag := if tag < 2 then some tag else none

/-- The row is removed by a batch for the first index, and the second index loses it. -/
theorem bothHold_loses :
    ∃ kept after, (bothHold [.value 1, .value 2]).processRecords [.negative [.value 1, .value 2]]
        (some 0) = .ok (kept, after) ∧
      after.state[1]?.map (fun index => index.state.view [.value 2]) = some (some 0) ∧
      (bothHold [.value 1, .value 2]).state[1]?.map (fun index => index.state.view [.value 2]) =
        some (some {[.value 1, .value 2]}) :=
  ⟨_, _, rfl, rfl, rfl⟩

/-- The first index holds a second row, whose key the second index has filled without it. -/
def firstHoldsMore : MemoryState ℕ where
  state :=
    [⟨⟨.hashMap, [0]⟩,
        .hash 2 (AList.insert [.value 1] {[.value 1, .value 2], [.value 1, .value 3]} ∅), true, 2⟩,
      ⟨⟨.hashMap, [1]⟩,
        .hash 1 (AList.insert [.value 3] 0 (AList.insert [.value 2] {[.value 1, .value 2]} ∅)),
        true, 1⟩]
  byTag tag := if tag < 2 then some tag else none

/-- A row for one of the first index. -/
def firstBatch : List (Record ℕ) :=
  [.positive [.value 1, .value 4], .negative [.value 1, .value 3]]

theorem firstHoldsMore_framed :
    ∃ kept after, firstHoldsMore.processRecords firstBatch (some 0) = .ok (kept, after) ∧
      (∃ changed, after.state[0]? = some changed ∧
        SingleState.ChangesBy firstBatch firstHoldsMore.state[0] changed) ∧
      ∀ other, other ≠ 0 → after.state[other]?.map (fun index => index.state.view) =
        firstHoldsMore.state[other]?.map fun index => index.state.view := by
  obtain ⟨kept, after, processed, framed⟩ := @processRecords_framed_iff ℕ _ _ firstBatch
    firstHoldsMore 0 0 rfl rfl rfl (by decide)
  refine ⟨kept, after, processed, framed.mpr ⟨fun key rows held => ?_, ?_⟩⟩
  · by_cases same : key = [.value 1]
    · subst same
      obtain rfl := Option.some.inj (held.symm.trans rfl)
      rfl
    · have first : ∀ record ∈ firstBatch, record.value.clonedIndices [0] = [.value 1] := by decide
      have noRecord : recordsAt [0] key firstBatch = [] :=
        List.filter_eq_nil_iff.mpr fun record mem isKey =>
          same ((of_decide_eq_true isKey).symm.trans (first record mem))
      exact congrArg (fun records => (applyAll rows records).isSome) noRecord
  · intro other ne index isIndex row removed rows held
    obtain rfl : row = [.value 1, .value 3] := by simpa [firstBatch] using removed
    have bound : other < 2 := (List.getElem?_eq_some_iff.mp isIndex).1
    obtain rfl : other = 1 := by omega
    obtain rfl := Option.some.inj (isIndex.symm.trans rfl)
    obtain rfl := Option.some.inj (held.symm.trans rfl)
    exact ⟨by decide, by decide⟩

end ReadySet.DataflowState
