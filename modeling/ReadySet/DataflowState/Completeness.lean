import ReadySet.DataflowState.Lookups

/-!
Owns a memory state at work over a table: new indices, updates, replays into
holes, holes and evictions, in any order. Every index stays complete for the
table: what it answers is the table's rows for the key.

The indices are independent of each other. A replay goes to one index and an
update to all, but each index only ever relates its own keys to the table. To
the operators, a state without partial indices is a full one.
-/

namespace ReadySet.DataflowState

open Data Library Dataflow SingleState List Function
open MemoryState (remove onTagged evictLoop evictKeys copyRows addKey insertWeak)

universe u

variable {V : Type u} [LinearOrder V]

/-! ## Steps -/

/-- What happens to a memory state. -/
inductive MemoryStep (V : Type u) [LinearOrder V] where
  | addKey (index : Index) (tags : Option (List Tag))
  | addWeakKey (index : Index)
  /-- An untagged batch, which also changes the table. -/
  | update (batch : List (Record V))
  /-- `mark_filled`, followed by a tagged batch with the rows of the key. -/
  | replay (key : KeyComparison V) (tag : Tag) (rows : List (Row V))
  | markHole (key : KeyComparison V) (tag : Tag)
  | evictKeys (tag : Tag) (keys : List (KeyComparison V))
  | evictBytes (eviction : MemoryState.Eviction V)

/-- A memory state and the table it is about. -/
structure MemoryWorld (V : Type u) [LinearOrder V] where
  memory : MemoryState V := {}
  table : Multiset (Row V) := 0

def MemoryState.taggedIndex (memory : MemoryState V) (tag : Tag) : Option (SingleState V) :=
  (memory.byTag tag).bind fun position => memory.state[position]?

namespace MemoryWorld

variable (order : BagOrder V)

def step (world : MemoryWorld V) :
    MemoryStep V → ReadySetResult (PUnit.{u + 1} × MemoryWorld V)
  | .addKey index tags => do
      let memory ← world.memory.addKey order index tags
      return (⟨⟩, { world with memory })
  | .addWeakKey index => .ok (⟨⟩, { world with memory := world.memory.addWeakKey index })
  | .update batch =>
    match applyAll world.table batch with
    | none => .error (.internal "the batch removes a row that the table does not have")
    | some table => do
        let (_, memory) ← world.memory.processRecords batch none
        return (⟨⟩, { memory, table })
  | .replay key tag rows => do
      let memory ← world.memory.markFilled key tag
      let (_, memory) ← memory.processRecords (rows.map .positive) (some tag)
      return (⟨⟩, { world with memory })
  | .markHole key tag => do
      let memory ← world.memory.markHole key tag
      return (⟨⟩, { world with memory })
  | .evictKeys tag keys => do
      let (_, memory) ← world.memory.evictKeys order tag keys
      return (⟨⟩, { world with memory })
  | .evictBytes eviction => do
      let (_, memory) ← world.memory.evictBytes order eviction
      return (⟨⟩, { world with memory })

/-- The table's rows for a key of an index. -/
def rowsFor (table : Multiset (Row V)) (single : SingleState V) (key : KeyComparison V) : Rows V :=
  table.filter fun row => key.contains (row.clonedIndices single.columns) = true

/-- What callers see to: rows and columns fit a table of the given width, a new
full index can be built from the first one, only partial indices are filled,
emptied and evicted from, with keys that they accept, and a replay brings the
table's rows for keys that are all holes. -/
def Admissible (width : Nat) (world : MemoryWorld V) : MemoryStep V → Prop
  | .addKey index tags =>
    index.columns ≠ [] ∧ (∀ col ∈ index.columns, col < width) ∧
      (tags = none → match world.memory.state with
        | [] => world.table = 0
        | first :: _ => first.isPartial = false)
  | .addWeakKey _ => True
  | .update batch =>
    (applyAll world.table batch).isSome ∧ ∀ record ∈ batch, record.value.length = width
  | .replay key tag rows =>
    ∃ single, world.memory.taggedIndex tag = some single ∧ single.isPartial = true ∧
      single.Accepts key ∧
      (∀ point, key.contains point = true → single.answer point = none) ∧
      (rows : Multiset (Row V)) = rowsFor world.table single key
  | .markHole key tag =>
    ∃ single, world.memory.taggedIndex tag = some single ∧ single.isPartial = true ∧
      single.Accepts key
  | .evictKeys tag keys =>
    ∀ single, world.memory.taggedIndex tag = some single →
      single.isPartial = true ∧ ∀ key ∈ keys, single.Accepts key
  | .evictBytes eviction =>
    ∃ single, world.memory.state[eviction.position]? = some single ∧ single.isPartial = true

end MemoryWorld

/-! ## The invariant -/

open MemoryState (Complete)

/-- Every index is complete for the table. -/
structure Maintains (width : Nat) (table : Multiset (Row V)) (memory : MemoryState V) : Prop where
  complete : ∀ single ∈ memory.state, Complete table single
  distinct : (memory.state.map SingleState.index).Nodup
  inWidth : ∀ single ∈ memory.state, ∀ col ∈ single.columns, col < width
  rows : ∀ row ∈ table, row.length = width
  tags : ∀ tag position, memory.byTag tag = some position → position < memory.state.length

section

variable {width : Nat} {table : Rows V} {memory : MemoryState V}

/-- The indices stay, and are complete for the table that there is now. -/
theorem Maintains.reindexed {next : Rows V} {after : MemoryState V}
    (inv : Maintains width table memory)
    (indices : after.state.map index = memory.state.map index) (byTag : after.byTag = memory.byTag)
    (complete : ∀ single ∈ after.state, Complete next single)
    (rows : ∀ row ∈ next, row.length = width) : Maintains width next after where
  complete := complete
  distinct := indices ▸ inv.distinct
  inWidth single mem := by
    obtain ⟨before, inState, same⟩ := mem_map.mp (indices ▸ mem_map_of_mem mem)
    rw [columns, ← same]
    exact inv.inWidth before inState
  rows := rows
  tags tag idx named := by
    have length := congrArg length indices
    rw [length_map, length_map] at length
    rw [length]
    exact inv.tags tag idx (byTag ▸ named)

theorem Maintains.congr {other : MemoryState V} (inv : Maintains width table memory)
    (state : other.state = memory.state) (byTag : other.byTag = memory.byTag) :
    Maintains width table other :=
  inv.reindexed (by rw [state]) byTag (state ▸ inv.complete) inv.rows

variable {single after : SingleState V} {idx : Nat}

theorem Maintains.set (inv : Maintains width table memory) (here : memory.state[idx]? = some single)
    (sameIndex : after.index = single.index) (complete : Complete table after) :
    Maintains width table { memory with state := memory.state.set idx after } := by
  refine inv.reindexed ?_ rfl (fun other mem => ?_) inv.rows
  · obtain ⟨bound, rfl⟩ := List.getElem?_eq_some_iff.mp here
    rw [map_set, sameIndex, ← map_set, set_getElem_self]
  · rcases mem_or_eq_of_mem_set mem with old | rfl
    · exact inv.complete other old
    · exact complete

/-- What one record does to one index. -/
def onRecord (record : Record V) (single : SingleState V) : SingleState V :=
  match record with
  | .positive row => (single.insertRow row).2
  | .negative row => (single.removeRow row).2

theorem onRecord_index (record : Record V) (single : SingleState V) :
    (onRecord record single).index = single.index := by
  cases record <;> rfl

variable {next : Rows V} {record : Record V}

theorem onRecord_complete (complete : Complete table single)
    (applied : applyOne table record = some next) : Complete next (onRecord record single) := by
  cases record with
  | positive row =>
    obtain rfl : row ::ₘ table = next := by simpa [applyOne] using applied
    refine ⟨insertRow_wellFormed complete.wellFormed row, complete.keyed, ?_⟩
    rw [matching_cons]
    exact insertRow_agrees complete.agrees row
  | negative row =>
    obtain ⟨mem, rfl⟩ := applyOne_negative_eq_some.mp applied
    refine ⟨removeRow_wellFormed complete.wellFormed row, complete.keyed, ?_⟩
    rw [matching_erase]
    exact removeRow_agrees complete.agrees (Multiset.mem_filter.mpr ⟨mem, rfl⟩)

theorem processRecord_untagged (memory : MemoryState V) (record : Record V) :
    ∃ hit after, memory.processRecord none record = .ok (hit, after) ∧
      after.state = memory.state.map (onRecord record) ∧ after.byTag = memory.byTag := by
  cases record with
  | positive row =>
    refine ⟨_, _, rfl, ?_, ?_⟩
    · split <;> rfl
    · split <;> rfl
  | negative row =>
    refine ⟨(memory.remove row).1, (memory.remove row).2, rfl, ?_, ?_⟩
    · simp only [remove]
      split <;> rfl
    · simp only [remove]
      split <;> rfl

/-- One record keeps every index complete. -/
theorem Maintains.processed (inv : Maintains width table memory)
    (applied : applyOne table record = some next)
    (fits : record.value.length = width) {after : MemoryState V}
    (state : after.state = memory.state.map (onRecord record))
    (byTag : after.byTag = memory.byTag) : Maintains width next after := by
  refine inv.reindexed ?_ byTag (fun single mem => ?_) fun row mem => ?_
  · rw [state, map_map]
    exact map_congr_left fun single _ => onRecord_index record single
  · rw [state] at mem
    obtain ⟨before, inState, rfl⟩ := mem_map.mp mem
    exact onRecord_complete (inv.complete before inState) applied
  · cases record with
    | positive added =>
      obtain rfl : added ::ₘ table = next := by simpa [applyOne] using applied
      rcases Multiset.mem_cons.mp mem with rfl | old
      · exact fits
      · exact inv.rows row old
    | negative removed =>
      obtain ⟨_, rfl⟩ := applyOne_negative_eq_some.mp applied
      exact inv.rows row (Multiset.mem_of_mem_erase mem)

/-- The rule for batches: what each record keeps holds once all are processed. -/
theorem processRecords_invariant (tag : Option Tag) (records : List (Record V))
    (inv : List (Record V) → MemoryState V → Prop)
    (keeps : ∀ done record rest cur, records = done ++ record :: rest →
      inv done cur → ∃ hit after,
        cur.processRecord (if memory.isPartial then tag else none) record = .ok (hit, after) ∧
          inv (done ++ [record]) after) (start : inv [] memory) :
    ∃ kept after, memory.processRecords records tag = .ok (kept, after) ∧ inv records after := by
  rw [MemoryState.processRecords]
  split
  case isTrue isPartial =>
    rw [if_pos isPartial] at keeps
    obtain ⟨⟨kept, after⟩, folded, holds⟩ := foldlM_invariant
      (fun (state : List (Record V) × MemoryState V) record => do
        let found ← state.2.processRecord tag record
        return (if found.1 then state.1 ++ [record] else state.1, found.2))
      (fun done state => inv done state.2) records
      (by
        intro done record rest state whole holds
        obtain ⟨hit, after, processed, holdsAfter⟩ := keeps done record rest state.2 whole holds
        refine ⟨(if hit then state.1 ++ [record] else state.1, after), ?_, holdsAfter⟩
        simp only [processed, ok_bind, pure_eq_ok])
      (show inv [] (([], memory) : List (Record V) × MemoryState V).2 from start)
    exact ⟨kept, after, folded, holds⟩
  case isFalse isFull =>
    rw [if_neg isFull] at keeps
    obtain ⟨after, folded, holds⟩ := foldlM_invariant (fun (memory : MemoryState V) record => do
        return (← memory.processRecord none record).2)
      inv records
      (by
        intro done record rest cur whole holds
        obtain ⟨hit, after, processed, holdsAfter⟩ := keeps done record rest cur whole holds
        refine ⟨after, ?_, holdsAfter⟩
        simp only [processed, ok_bind, pure_eq_ok])
      start
    exact ⟨records, after, congrArg (· >>= fun memory => pure (records, memory)) folded, holds⟩

/-- The table after the records worked off so far, with the indices complete
for it. -/
def MaintainsAfter (width : Nat) (table : Multiset (Row V)) (done : List (Record V))
    (memory : MemoryState V) : Prop :=
  ∃ current, applyAll table done = some current ∧ Maintains width current memory

theorem MaintainsAfter.processed {done rest : List (Record V)}
    (valid : applyAll table (done ++ record :: rest) = some next)
    (fits : record.value.length = width) (inv : MaintainsAfter width table done memory) :
    ∃ hit after, memory.processRecord none record = .ok (hit, after) ∧
      MaintainsAfter width table (done ++ [record]) after := by
  obtain ⟨cur, reached, maintainsNow⟩ := inv
  rw [applyAll_append, reached] at valid
  obtain ⟨following, applied, _⟩ := applyAll_cons_eq_some.mp valid
  obtain ⟨hit, after, processed, state, byTag⟩ := processRecord_untagged memory record
  refine ⟨hit, after, processed, following, ?_, maintainsNow.processed applied fits state byTag⟩
  rw [applyAll_append, reached]
  exact applyAll_cons_eq_some.mpr ⟨following, applied, rfl⟩

theorem Maintains.update (inv : Maintains width table memory) {batch : List (Record V)}
    (valid : applyAll table batch = some next)
    (fits : ∀ record ∈ batch, record.value.length = width) :
    ∃ kept after, memory.processRecords batch none = .ok (kept, after) ∧
      Maintains width next after := by
  obtain ⟨kept, after, processed, final, reached, maintainsFinally⟩ :=
    processRecords_invariant none batch (MaintainsAfter width table) (by
        intro done record rest cur whole holds
        rw [whole] at valid
        rw [ite_self]
        exact holds.processed valid (fits record (by simp [whole])))
      ⟨table, rfl, inv⟩
  rw [valid] at reached
  rw [Option.some.inj reached]
  exact ⟨kept, after, processed, maintainsFinally⟩

/-! ## Holes and evictions -/

variable {tag : Tag}

theorem taggedIndex_spec (named : memory.taggedIndex tag = some single) :
    ∃ idx, memory.byTag tag = some idx ∧ memory.state[idx]? = some single :=
  Option.bind_eq_some_iff.mp named

theorem onTagged_eq (byTag : memory.byTag tag = some idx) (here : memory.state[idx]? = some single)
    {change : SingleState V → ReadySetResult (SingleState V)} (changed : change single = .ok after) :
    memory.onTagged tag change = .ok { memory with state := memory.state.set idx after } := by
  simp [onTagged, byTag, here, changed]

theorem Complete.emptied {gone : Key V → Prop}
    (complete : Complete table single) (isPartial : single.isPartial = true)
    (emptied : SingleState.Emptied single gone after) : Complete table after :=
  Complete.of_index complete.keyed emptied.index (emptied.wellFormed complete.wellFormed)
    (emptied.agrees isPartial complete.agrees)

variable {key : KeyComparison V} {index : Index} {rows : List (Row V)}

theorem Maintains.markHole (inv : Maintains width table memory)
    (named : memory.taggedIndex tag = some single)
    (isPartial : single.isPartial = true) (accepts : single.Accepts key) :
    ∃ after, memory.markHole key tag = .ok after ∧ Maintains width table after := by
  obtain ⟨idx, byTag, here⟩ := taggedIndex_spec named
  have complete := inv.complete single (mem_of_getElem? here)
  obtain ⟨after, marked, emptied⟩ := markHole_spec complete.wellFormed accepts
  exact ⟨_, onTagged_eq byTag here marked,
    inv.set here emptied.index (Complete.emptied complete isPartial emptied)⟩

theorem Complete.keyedRows (complete : Complete table single) : single.Keyed := by
  intro point held filled row mem
  rw [complete.agrees point held (answer_of_view filled)] at mem
  exact (Multiset.mem_filter.mp mem).2

theorem removeAllWeak_strict (order : BagOrder V) (memory : MemoryState V) (rows : Rows V) :
    (memory.removeAllWeak order rows).state = memory.state ∧
      (memory.removeAllWeak order rows).byTag = memory.byTag := by
  rw [MemoryState.removeAllWeak]
  induction order.list rows generalizing memory with
  | nil => exact ⟨rfl, rfl⟩
  | cons row rest ih => exact ih (memory.removeWeak row)

theorem Maintains.removeAllWeak (inv : Maintains width table memory) (order : BagOrder V)
    (rows : Rows V) : Maintains width table (memory.removeAllWeak order rows) :=
  inv.congr (removeAllWeak_strict order memory rows).1 (removeAllWeak_strict order memory rows).2

/-- Evicting random keys keeps every index complete for the keys it has left. -/
theorem Maintains.evictLoop (order : BagOrder V) (eviction : MemoryState.Eviction V) (rounds : Nat)
    (bytesFreed : Nat) (keysEvicted : List (Key V))
    (inv : Maintains width table memory) (here : memory.state[eviction.position]? = some single)
    (isPartial : single.isPartial = true) :
    Maintains width table
      (evictLoop order eviction rounds (bytesFreed, keysEvicted, memory)).2.2 := by
  induction rounds generalizing bytesFreed keysEvicted memory single with
  | zero => exact inv
  | succ rounds ih =>
    rw [evictLoop]
    split
    case isTrue => exact inv
    case isFalse =>
      have complete := inv.complete single (mem_of_getElem? here)
      simp only [here]
      rcases single.evictRandom_spec (eviction.seeds keysEvicted.length) with
        ⟨key, rows, after, evicted, _, _, emptied⟩ | ⟨nothing, _⟩
      · simp only [evicted]
        have kept := (inv.set here emptied.index
          (Complete.emptied complete isPartial emptied)).removeAllWeak order rows
        apply ih _ _ kept _ (emptied.isPartial.trans isPartial)
        rw [(removeAllWeak_strict order _ rows).1]
        exact List.getElem?_set_self (List.getElem?_eq_some_iff.mp here).1
      · simp only [nothing]
        exact inv

section

variable (inv : Maintains width table memory) (order : BagOrder V)

include inv

theorem Maintains.evictKeys {keys : List (KeyComparison V)}
    (accepts : ∀ single, memory.taggedIndex tag = some single → single.isPartial = true ∧
      ∀ key ∈ keys, single.Accepts key) :
    ∃ index after, memory.evictKeys order tag keys = .ok (index, after) ∧
      Maintains width table after := by
  cases byTag : memory.byTag tag with
  | none => exact ⟨none, memory, by simp only [MemoryState.evictKeys, byTag], inv⟩
  | some idx =>
    have bound := inv.tags tag idx byTag
    have here := getElem?_eq_getElem bound
    have named : memory.taggedIndex tag = some memory.state[idx] := by
      rw [MemoryState.taggedIndex, byTag, Option.bind_some, here]
    obtain ⟨isPartial, accepted⟩ := accepts _ named
    have complete := inv.complete _ (mem_of_getElem? here)
    obtain ⟨rows, after, evicted, emptied, _⟩ :=
      evictKeys_spec complete.wellFormed (Complete.keyedRows complete) accepted
    refine ⟨some after.index, _, ?_, (inv.set here emptied.index
      (Complete.emptied complete isPartial emptied)).removeAllWeak order rows⟩
    simp [MemoryState.evictKeys, byTag, here, evicted]

theorem Maintains.evictBytes {eviction : MemoryState.Eviction V}
    (here : memory.state[eviction.position]? = some single) (isPartial : single.isPartial = true) :
    ∃ evicted after, memory.evictBytes order eviction = .ok (evicted, after) ∧
      Maintains width table after := by
  refine ⟨_, _, by simp only [MemoryState.evictBytes, here]; rfl, ?_⟩
  exact Maintains.evictLoop order eviction single.state.keyCount 0 [] inv here isPartial

end

/-! ## New indices -/

abbrev SingleState.insertRows (single : SingleState V) (rows : List (Row V)) : SingleState V :=
  rows.foldl (fun single row => (single.insertRow row).2) single

theorem foldl_insertRow_index (rows : List (Row V)) (single : SingleState V) :
    (single.insertRows rows).index = single.index := by
  induction rows generalizing single with
  | nil => rfl
  | cons row rest ih => exact ih (single.insertRow row).2

/-- Rows are added under their keys, and nothing else changes. -/
theorem foldl_insertRow
    {contents : Key V → Rows V} (wf : single.WellFormed) (agrees : single.Agrees contents) :
    let after := single.insertRows rows
    after.index = single.index ∧ after.isPartial = single.isPartial ∧ after.WellFormed ∧
      after.Agrees fun key => contents key + matching (rows : Rows V) single.columns key := by
  induction rows generalizing single contents with
  | nil =>
    refine ⟨rfl, rfl, wf, ?_⟩
    simpa [matching] using agrees
  | cons row rest ih =>
    obtain ⟨index, isPartial, wellFormedAfter, agreesAfter⟩ := ih
      (insertRow_wellFormed wf row) (insertRow_agrees agrees row)
    refine ⟨index, isPartial, wellFormedAfter, ?_⟩
    have total : (fun key => contents key +
        matching ((row :: rest : List (Row V)) : Rows V) single.columns key) =
        fun key => update contents (row.clonedIndices single.columns)
          (row ::ₘ contents (row.clonedIndices single.columns)) key +
            matching (rest : Rows V) single.columns key := by
      funext key
      rw [← Multiset.cons_coe, matching_cons, update_apply, update_apply]
      split
      case isTrue same =>
        rw [same, Multiset.add_cons, Multiset.cons_add]
      case isFalse => rfl
    rw [total]
    exact agreesAfter

theorem Complete.sum_values (complete : Complete table single)
    (isFull : single.isPartial = false) : single.values.sum = table := by
  refine Stores.sum_values fun key => ?_
  apply complete.agrees key
  rw [answer, isFull]
  cases single.state.view key <;> rfl

theorem copyRows_complete {order : BagOrder V} {first new : SingleState V}
    (complete : Complete table first) (isFull : first.isPartial = false)
    (wf : new.WellFormed) (keyed : new.columns ≠ []) (empty : new.Agrees fun _ => 0) :
    (copyRows order first new).index = new.index ∧ Complete table (copyRows order first new) := by
  have copied : copyRows order first new = new.insertRows (first.values.flatMap order.list) := by
    rw [copyRows, SingleState.insertRows, foldl_flatMap]
  obtain ⟨index, _, wellFormedAfter, agrees⟩ :=
    foldl_insertRow wf empty
  rw [← copied] at index wellFormedAfter agrees
  simp only [coe_flatMap, order.list_coe, map_id'] at agrees
  rw [Complete.sum_values complete isFull] at agrees
  exact ⟨index, Complete.of_index keyed index wellFormedAfter (by simpa using agrees)⟩

theorem assignTags_spec {tags : List Tag} {other : Nat}
    (named : memory.assignTags tags idx tag = some other) :
    other = idx ∨ memory.byTag tag = some other := by
  rw [MemoryState.assignTags] at named
  -- The last assignment counts, so the induction is from the end of the tags.
  induction tags using reverseRecOn with
  | nil => exact .inr named
  | append_singleton tags last ih =>
    rw [foldl_append, foldl_cons, foldl_nil, update_apply] at named
    split at named
    case isTrue => exact .inl (Option.some.inj named).symm
    case isFalse => exact ih named

theorem ne_index_of_stateFor (missing : memory.stateFor index.columns index.indexType = none) :
    ∀ single ∈ memory.state, single.index ≠ index := by
  rintro single mem rfl
  have found := MemoryState.stateFor_isSome mem
  rw [columns, indexType, missing] at found
  contradiction

section

variable (inv : Maintains width table memory)

include inv

/-- A new index that is complete joins the others. -/
theorem Maintains.append {new : SingleState V} (complete : Complete table new)
    (isNew : ∀ single ∈ memory.state, single.index ≠ new.index)
    (inWidth : ∀ col ∈ new.columns, col < width) (tags : List Tag) :
    Maintains width table { memory with
        state := memory.state ++ [new]
        byTag := memory.assignTags tags memory.state.length } where
  complete single mem := by
    rcases mem_append.mp mem with old | here
    · exact inv.complete single old
    · rw [mem_singleton.mp here]
      exact complete
  distinct := by
    rw [map_append, nodup_append]
    refine ⟨inv.distinct, nodup_singleton _, ?_⟩
    intro index old other here
    obtain ⟨single, mem, rfl⟩ := mem_map.mp old
    rw [mem_singleton.mp here]
    exact isNew single mem
  inWidth single mem := by
    rcases mem_append.mp mem with old | here
    · exact inv.inWidth single old
    · rw [mem_singleton.mp here]
      exact inWidth
  rows := inv.rows
  tags tag idx named := by
    rw [length_append]
    rcases assignTags_spec named with rfl | old
    · exact Nat.lt_succ_self _
    · exact Nat.lt_succ_of_lt (inv.tags tag idx old)

theorem Maintains.retag (bound : idx < memory.state.length) (tags : List Tag) :
    Maintains width table { memory with byTag := memory.assignTags tags idx } where
  complete := inv.complete
  distinct := inv.distinct
  inWidth := inv.inWidth
  rows := inv.rows
  tags tag other named := by
    rcases assignTags_spec named with rfl | old
    · exact bound
    · exact inv.tags tag other old

/-- A new index is a hole everywhere, empty for an empty table, or a copy of a
full one. -/
theorem Maintains.addKey (order : BagOrder V) (keyed : index.columns ≠ [])
    (inWidth : ∀ col ∈ index.columns, col < width) {tags : Option (List Tag)} (full : tags = none →
      match memory.state with | [] => table = 0 | first :: _ => first.isPartial = false) :
    ∃ after, memory.addKey order index tags = .ok after ∧ Maintains width table after := by
  cases found : memory.stateFor index.columns index.indexType with
  | some idx =>
    obtain ⟨single, here, _⟩ := MemoryState.stateFor_spec found
    refine ⟨_, by simp only [MemoryState.addKey, found]; rfl, ?_⟩
    exact inv.retag (List.getElem?_eq_some_iff.mp here).1 (tags.getD [])
  | none =>
    have isNew := ne_index_of_stateFor found
    obtain ⟨new, created, rfl, isPartial, wf, answers⟩ := @new_spec V _ index tags.isSome
    -- An index that answers like the new one, once the table is known to agree.
    have complete (agrees : ∀ key, tags.isSome = false → matching table new.columns key = 0) :
        Complete table new := by
      refine ⟨wf, keyed, fun key rows answered => ?_⟩
      rw [answers] at answered
      split at answered
      case isTrue => contradiction
      case isFalse isFull =>
        rw [agrees key (Bool.eq_false_iff.mpr isFull), Option.some.inj answered]
    cases tags with
    | some tags =>
      refine ⟨_, by simp only [addKey, found, created]; rfl, ?_⟩
      exact inv.append (complete fun _ isFull => Bool.noConfusion isFull) isNew inWidth tags
    | none =>
      have first := full rfl
      cases state : memory.state with
      | nil =>
        rw [state] at first
        refine ⟨_, by simp only [addKey, found, created, state]; rfl, ?_⟩
        have appended := inv.append (complete fun key _ => by rw [first]; rfl) isNew inWidth []
        rw [state] at appended
        exact appended
      | cons oldest rest =>
        rw [state] at first
        have isOldest : oldest ∈ memory.state := by simp [state]
        have empty : new.Agrees fun _ => 0 := by
          intro key rows answered
          rw [answers] at answered
          exact (Option.some.inj answered).symm
        obtain ⟨sameIndex, copied⟩ := copyRows_complete
          (inv.complete oldest isOldest) first wf keyed empty
        refine ⟨_, by
          simp only [addKey, found, created, state, first]
          rfl, ?_⟩
        have appended := inv.append copied (by rwa [sameIndex]) (by
          rw [columns, sameIndex]
          exact inWidth) []
        rw [state] at appended
        exact appended

end

/-! ## Replays -/

theorem isSome_foldl_insertRow (rows : List (Row V)) (single : SingleState V) (point : Key V) :
    ((single.insertRows rows).answer point).isSome = (single.answer point).isSome := by
  induction rows generalizing single with
  | nil => rfl
  | cons row rest ih =>
    rw [SingleState.insertRows, foldl_cons, ih, insertRow_answer]
    split
    case isTrue => rw [Option.isSome_map]
    case isFalse => rfl

variable {point : Key V}

/-- A tagged batch of rows for filled keys goes to one index, and to the weak
ones. -/
theorem processRecords_tagged
    (byTag : memory.byTag tag = some idx) (here : memory.state[idx]? = some single)
    (isPartial : single.isPartial = true)
    (filled : ∀ row ∈ rows, (single.answer (row.clonedIndices single.columns)).isSome = true) :
    ∃ kept after, memory.processRecords (rows.map .positive) (some tag) = .ok (kept, after) ∧
      after.state = memory.state.set idx (single.insertRows rows) ∧
      after.byTag = memory.byTag ∧
      after.weakIndices = (rows.foldl insertWeak memory).weakIndices := by
  have bound := (List.getElem?_eq_some_iff.mp here).1
  have anyPartial : memory.isPartial = true :=
    any_eq_true.mpr ⟨single, mem_of_getElem? here, isPartial⟩
  obtain ⟨kept, after, processed, inserted, isRows, state, sameTags, weak⟩ :=
    processRecords_invariant (some tag) (rows.map .positive)
      (fun done cur => ∃ inserted : List (Row V), done = inserted.map .positive ∧
        cur.state = memory.state.set idx (single.insertRows inserted) ∧
        cur.byTag = memory.byTag ∧
        cur.weakIndices = (inserted.foldl insertWeak memory).weakIndices)
      (by
        rintro done record rest cur whole ⟨inserted, rfl, state, sameTags, weak⟩
        rw [if_pos anyPartial]
        obtain ⟨row, isRow, rfl⟩ : ∃ row ∈ rows, .positive row = record := by
          rw [← mem_map, whole]
          simp
        set now := single.insertRows inserted with isNow
        have hereNow : cur.state[idx]? = some now := by
          rw [state]
          exact getElem?_set_self bound
        have hit : (now.insertRow row).1 = true := by
          have columns : now.columns = single.columns :=
            congrArg Index.columns (foldl_insertRow_index inserted single)
          rw [insertRow_hit, columns, isSome_foldl_insertRow]
          exact filled row isRow
        rw [← sameTags] at byTag
        simp only [MemoryState.processRecord, MemoryState.insert, byTag, hereNow, hit, if_true]
        refine ⟨_, _, rfl, inserted ++ [row], by simp, ?_, sameTags, ?_⟩
        · rw [SingleState.insertRows, foldl_append, foldl_cons, foldl_nil]
          change cur.state.set idx _ = _
          rw [state, set_set]
        · rw [foldl_append, foldl_cons, foldl_nil]
          simp only [insertWeak, weak])
      (by
        refine ⟨[], rfl, ?_, rfl, rfl⟩
        rw [← (List.getElem?_eq_some_iff.mp here).2]
        exact (set_getElem_self bound).symm)
  have allInserted : inserted = rows :=
    (map_injective_iff.mpr (fun left right same => Signed.positive.inj same) isRows).symm
  rw [allInserted] at state weak
  exact ⟨kept, after, processed, state, sameTags, weak⟩

/-- Rows that change every weak index alike do so one after the other. -/
theorem foldl_weakIndices (onWeak : Row V → List Nat × KeyedState V → List Nat × KeyedState V)
    {change : MemoryState V → Row V → MemoryState V} (changes : ∀ memory row,
      (change memory row).weakIndices = memory.weakIndices.map (onWeak row))
    (rows : List (Row V)) (memory : MemoryState V) : (rows.foldl change memory).weakIndices =
      memory.weakIndices.map fun weak => rows.foldl (fun weak row => onWeak row weak) weak := by
  induction rows generalizing memory with
  | nil => exact (map_id _).symm
  | cons row rest ih =>
    rw [foldl_cons, ih, changes, map_map]
    rfl

theorem rowsFor_of_contains (inKey : key.contains point = true) :
    matching (MemoryWorld.rowsFor table single key) single.columns point =
      matching table single.columns point := by
  rw [matching, MemoryWorld.rowsFor, Multiset.filter_filter]
  refine Multiset.filter_congr fun row _ => ⟨And.left, fun same => ⟨same, ?_⟩⟩
  rw [same]
  exact inKey

theorem rowsFor_of_not_contains (outside : ¬ key.contains point = true) :
    matching (MemoryWorld.rowsFor table single key) single.columns point = 0 := by
  refine Multiset.filter_eq_nil.mpr fun row mem same => outside ?_
  rw [← same]
  exact (Multiset.mem_filter.mp mem).2

section

variable (inv : Maintains width table memory) (isPartial : single.isPartial = true)
  (accepts : single.Accepts key)
  (unfilled : ∀ point, key.contains point = true → single.answer point = none)
  (replayed : (rows : Rows V) = MemoryWorld.rowsFor table single key)

include inv isPartial accepts unfilled replayed

/-- The table's rows for a key that is all holes: they fill it in the tagged
index, and are added to the weak indices. -/
theorem replay_spec (byTag : memory.byTag tag = some idx)
    (here : memory.state[idx]? = some single) :
    ∃ marked kept after filled, memory.markFilled key tag = .ok marked ∧
      marked.processRecords (rows.map .positive) (some tag) = .ok (kept, after) ∧
      after.state = memory.state.set idx filled ∧ after.byTag = memory.byTag ∧
      after.weakIndices = (rows.foldl insertWeak memory).weakIndices ∧
      filled.index = single.index ∧ filled.isPartial = true ∧ Complete table filled ∧
      ∀ point, (filled.answer point).isSome =
        (key.contains point || (single.answer point).isSome) := by
  have bound := (List.getElem?_eq_some_iff.mp here).1
  have complete := inv.complete single (mem_of_getElem? here)
  simp only [answer_eq_view isPartial] at unfilled ⊢
  obtain ⟨opened, ok, same, viewed⟩ := markFilled_spec complete.wellFormed accepts unfilled
  have openedPartial : opened.isPartial = true := same.isPartial.trans isPartial
  have columns : opened.columns = single.columns := congrArg Index.columns same.index
  have opens (point : Key V) : (opened.answer point).isSome =
      (key.contains point || (single.state.view point).isSome) := by
    rw [answer_eq_view openedPartial, viewed]
    cases key.contains point <;> rfl
  -- The key's points are filled and empty, the others are as before.
  have agrees : opened.Agrees fun point =>
      if key.contains point then 0 else matching table single.columns point := by
    intro point held answered
    rw [answer_eq_view openedPartial, viewed] at answered
    beta_reduce
    split at answered
    case isTrue inKey =>
      rw [if_pos inKey]
      exact (Option.some.inj answered).symm
    case isFalse outside =>
      rw [if_neg outside]
      exact complete.agrees point held (answer_of_view answered)
  obtain ⟨sameIndex, samePartial, wf, agreesAfter⟩ :=
    foldl_insertRow (same.wellFormed complete.wellFormed) agrees
  have filled : ∀ row ∈ rows, (opened.answer (row.clonedIndices opened.columns)).isSome = true := by
    intro row mem
    rw [← Multiset.mem_coe, replayed] at mem
    rw [columns, opens, (Multiset.mem_filter.mp mem).2, Bool.true_or]
  obtain ⟨kept, final, processed, state, sameTags, weak⟩ := @processRecords_tagged V _
    { memory with state := memory.state.set idx opened } opened idx tag rows byTag
    (getElem?_set_self bound) openedPartial filled
  have answers := isSome_foldl_insertRow rows opened
  set after := opened.insertRows rows
  refine ⟨_, kept, final, after, onTagged_eq byTag here ok, processed, ?_, sameTags, ?_,
    sameIndex.trans same.index, samePartial.trans openedPartial,
    Complete.of_index complete.keyed (sameIndex.trans same.index) wf ?_, ?_⟩
  · rw [state, set_set]
  · rw [weak, foldl_weakIndices _ fun _ _ => rfl, foldl_weakIndices _ fun _ _ => rfl]
  · intro point held answered
    rw [agreesAfter point held answered, columns, replayed]
    beta_reduce
    split
    case isTrue inKey => rw [rowsFor_of_contains inKey, zero_add]
    case isFalse outside => rw [rowsFor_of_not_contains outside, add_zero]
  · intro point
    rw [answers, opens]

theorem Maintains.replay (named : memory.taggedIndex tag = some single) :
    ∃ marked kept after, memory.markFilled key tag = .ok marked ∧
      marked.processRecords (rows.map .positive) (some tag) = .ok (kept, after) ∧
      Maintains width table after := by
  obtain ⟨idx, byTag, here⟩ := taggedIndex_spec named
  obtain ⟨marked, kept, after, filled, ok, processed, state, sameTags, _, sameIndex, _,
    complete, _⟩ := replay_spec inv isPartial accepts unfilled replayed byTag here
  exact ⟨marked, kept, after, ok, processed, (inv.set here sameIndex complete).congr state sameTags⟩

end

/-! ## Whole runs -/

/-- Every admissible step succeeds and keeps every index complete. -/
theorem MemoryWorld.step_maintains (order : BagOrder V) {world : MemoryWorld V}
    {input : MemoryStep V} (inv : Maintains width world.table world.memory)
    (admissible : world.Admissible width input) :
    ∃ output next, world.step order input = .ok (output, next) ∧
      Maintains width next.table next.memory := by
  cases input with
  | addKey index tags =>
    obtain ⟨keyed, inWidth, full⟩ := admissible
    obtain ⟨after, added, kept⟩ := inv.addKey order keyed inWidth full
    refine ⟨⟨⟩, { world with memory := after }, ?_, kept⟩
    simp [step, added]
  | addWeakKey index =>
    exact ⟨⟨⟩, _, rfl, inv.congr rfl rfl⟩
  | update batch =>
    obtain ⟨valid, fits⟩ := admissible
    obtain ⟨table, applied⟩ := Option.isSome_iff_exists.mp valid
    obtain ⟨_, after, processed, kept⟩ := inv.update applied fits
    refine ⟨⟨⟩, { memory := after, table }, ?_, kept⟩
    simp [step, applied, processed]
  | replay key tag rows =>
    obtain ⟨single, named, isPartial, accepts, unfilled, replayed⟩ := admissible
    obtain ⟨marked, _, after, filled, processed, kept⟩ :=
      inv.replay isPartial accepts unfilled replayed named
    refine ⟨⟨⟩, { world with memory := after }, ?_, kept⟩
    simp [step, filled, processed]
  | markHole key tag =>
    obtain ⟨single, named, isPartial, accepts⟩ := admissible
    obtain ⟨after, marked, kept⟩ := inv.markHole named isPartial accepts
    refine ⟨⟨⟩, { world with memory := after }, ?_, kept⟩
    simp [step, marked]
  | evictKeys tag keys =>
    obtain ⟨_, after, evicted, kept⟩ := inv.evictKeys order admissible
    refine ⟨⟨⟩, { world with memory := after }, ?_, kept⟩
    simp [step, evicted]
  | evictBytes eviction =>
    obtain ⟨single, here, isPartial⟩ := admissible
    obtain ⟨_, after, evicted, kept⟩ := inv.evictBytes order here isPartial
    refine ⟨⟨⟩, { world with memory := after }, ?_, kept⟩
    simp [step, evicted]

theorem Maintains.empty (width : Nat) : Maintains width (0 : Rows V) {} where
  complete _ mem := absurd mem not_mem_nil
  distinct := nodup_nil
  inWidth _ mem := absurd mem not_mem_nil
  rows row mem := absurd mem (Multiset.notMem_zero row)
  tags _ _ named := absurd named.symm (Option.some_ne_none _)

theorem Maintains.lookup (inv : Maintains width table memory) {columns : List Nat}
    {key : Key V} (distinct : columns.Nodup) (length : key.length = columns.length) :
    ((∃ single ∈ memory.state, single.columns = columns) →
        MemoryState.Correct table columns key (memory.lookup columns key)) ∧
      ((∃ single ∈ memory.state, single.columns = columns ∧ single.isPartial = false) →
        memory.lookup columns key = .ok (.some (matching table columns key))) := by
  have correct (indexed : ∃ single ∈ memory.state, single.columns = columns) :
      MemoryState.Correct table columns key (memory.lookup columns key) := by
    refine MemoryState.lookup_correct inv.complete indexed distinct length ?_
    obtain ⟨single, mem, rfl⟩ := indexed
    intro row inTable col inColumns
    rw [inv.rows row inTable]
    exact inv.inWidth single mem col inColumns
  refine ⟨correct, ?_⟩
  rintro ⟨full, mem, rfl, isFull⟩
  have answered := MemoryState.lookup_ne_missing
    (fun single inState => (inv.complete single inState).wellFormed) inv.distinct
    mem isFull length
  exact (correct ⟨full, mem, rfl⟩).resolve_left answered

end

/-- **Lookups are complete.** In every run whose steps are admissible, no step
fails, and in the state reached a lookup on indexed columns misses or returns
exactly the table's rows for the key. With a full index on the columns it does
not miss. -/
theorem run_lookupsComplete (order : BagOrder V) (width : Nat) {steps : List (MemoryStep V)}
    (along : Along (MemoryWorld.step order) (MemoryWorld.Admissible width) {} steps) :
    ∃ trace world, run (MemoryWorld.step order) {} steps = .ok (trace, world) ∧
      ∀ columns key, columns.Nodup → key.length = columns.length →
        ((∃ single ∈ world.memory.state, single.columns = columns) →
          MemoryState.Correct world.table columns key (world.memory.lookup columns key)) ∧
        ((∃ single ∈ world.memory.state, single.columns = columns ∧ single.isPartial = false) →
          world.memory.lookup columns key =
            .ok (.some (matching world.table columns key))) := by
  obtain ⟨trace, world, ran, maintains⟩ := run_along (MemoryWorld.step order)
    (fun world => Maintains width world.table world.memory)
    (fun _ _ maintains admissible => MemoryWorld.step_maintains order maintains admissible)
    (Maintains.empty width) along
  exact ⟨trace, world, ran, fun _ _ distinct length => maintains.lookup distinct length⟩

/-- Rows in ascending order. -/
def BagOrder.sorted : BagOrder V where
  list := ascending
  list_coe := coe_ascending

/-- A full index gets a row, and then loses its only key. -/
def evictFull : List (MemoryStep ℕ) :=
  [.addKey ⟨.hashMap, [0]⟩ none, .update [.positive [.value 1, .value 2]],
    .evictBytes ⟨0, fun _ => 0, fun _ _ _ => 1, 1⟩]

/-- The row is in the table, but the lookup answers that there is none. -/
theorem evictFull_losesRow :
    ∃ trace world, run (MemoryWorld.step .sorted) {} evictFull = .ok (trace, world) ∧
      world.table = {[.value 1, .value 2]} ∧
      world.memory.lookup [0] [.value 1] = .ok (.some 0) ∧
      ¬ MemoryState.Correct world.table [0] [.value 1] (world.memory.lookup [0] [.value 1]) := by
  refine ⟨_, _, rfl, rfl, rfl, ?_⟩
  rintro (missing | answered)
  · cases missing
  · have empty : (0 : Rows ℕ) = matching {[.value 1, .value 2]} [0] [.value 1] :=
      BagResult.some.inj (Except.ok.inj answered)
    revert empty
    decide

/-- A full and a partial index: a key of the partial one is replayed, updated
and evicted. -/
def replayThenEvict : List (MemoryStep ℕ) :=
  [.addKey ⟨.hashMap, [0]⟩ none, .addKey ⟨.hashMap, [1]⟩ (some [7]),
    .update [.positive [.value 1, .value 2]], .replay (.equal [.value 2]) 7 [[.value 1, .value 2]],
    .update [.positive [.value 3, .value 2]], .evictBytes ⟨1, fun _ => 0, fun _ _ _ => 1, 1⟩]

theorem replayThenEvict_admissible :
    Along (MemoryWorld.step .sorted) (MemoryWorld.Admissible 2) {} replayThenEvict := by
  refine along_cons _ ⟨by decide, by decide, fun _ => rfl⟩ rfl ?_
  refine along_cons _ ⟨by decide, by decide, fun untagged => by contradiction⟩ rfl ?_
  refine along_cons _ ⟨rfl, by decide⟩ rfl ?_
  refine along_cons _ ⟨_, rfl, rfl, rfl, fun point inKey => ?_, rfl⟩ rfl ?_
  · rw [KeyComparison.contains_equal.mp inKey]
    rfl
  refine along_cons _ ⟨rfl, by decide⟩ rfl ?_
  exact along_cons _ ⟨_, rfl, rfl⟩ rfl trivial

theorem run_lookupsComplete_replayThenEvict :
    ∃ trace world, run (MemoryWorld.step .sorted) {} replayThenEvict = .ok (trace, world) ∧
      ∀ columns key, columns.Nodup → key.length = columns.length →
        ((∃ single ∈ world.memory.state, single.columns = columns) →
          MemoryState.Correct world.table columns key (world.memory.lookup columns key)) ∧
        ((∃ single ∈ world.memory.state, single.columns = columns ∧ single.isPartial = false) →
          world.memory.lookup columns key =
            .ok (.some (matching world.table columns key))) :=
  run_lookupsComplete .sorted 2 replayThenEvict_admissible

/-! ## For the operators -/

/-- A memory state as the operators see it. What it does not find, or fails on, is missing. -/
def MemoryState.asState (order : BagOrder V) (memory : MemoryState V) : State V where
  isPartial := memory.isPartial
  lookup columns key :=
    match memory.lookup columns key with
    | .ok (.some rows) => .some (order.list rows)
    | _ => .missing
  lookupWeak columns key := (memory.lookupWeak columns key).toOption.join.map order.list

/-- **Memory states serve the operators.** In every run whose steps are admissible, a
state reached without partial indices is, on the columns of each index, what the
operators take a full state over the table to be. -/
theorem run_fullOn (order : BagOrder V) (width : Nat) {steps : List (MemoryStep V)}
    (along : Along (MemoryWorld.step order) (MemoryWorld.Admissible width) {} steps) :
    ∃ trace world, run (MemoryWorld.step order) {} steps = .ok (trace, world) ∧
      (world.memory.isPartial = false → ∀ single ∈ world.memory.state, single.columns.Nodup →
        FullOn (world.memory.asState order) single.columns world.table) := by
  obtain ⟨trace, world, ran, maintains⟩ := run_along (MemoryWorld.step order)
    (fun world => Maintains width world.table world.memory)
    (fun _ _ => MemoryWorld.step_maintains order) (Maintains.empty width) along
  refine ⟨trace, world, ran, fun full single mem distinct => ⟨full, fun key length => ?_⟩⟩
  have isFull : single.isPartial = false := Bool.eq_false_iff.mpr (any_eq_false.mp full single mem)
  have found := (maintains.lookup distinct length).2 ⟨single, mem, rfl, isFull⟩
  exact ⟨_, by simp [MemoryState.asState, found], order.list_coe _⟩

theorem run_fullOn_oneRow : ∃ world : MemoryWorld ℕ, world.table = {[.value 1, .value 2]} ∧
    FullOn (world.memory.asState .sorted) [0] world.table := by
  have along : Along (MemoryWorld.step .sorted) (MemoryWorld.Admissible 2) {} (evictFull.take 2) :=
    along_cons _ ⟨by decide, by decide, fun _ => rfl⟩ rfl
      (along_cons _ ⟨rfl, by decide⟩ rfl trivial)
  obtain ⟨_, _, ran, full⟩ := run_fullOn .sorted 2 along
  obtain ⟨-, rfl⟩ := ok_pair_inj ran
  exact ⟨_, rfl, full rfl _ mem_cons_self (by decide)⟩

end ReadySet.DataflowState
