import ReadySet.DataflowState.Persistent.Consistent

/-!
Owns batches of records against the database of a base table: what
`process_records` stores compared with applying the records one at a time.

Records of a batch are looked for in the committed data only. A row that no
unique key tells apart is therefore removed correctly at most once per batch,
and only if it was stored before the batch; the main theorem says that nothing
else goes wrong.
-/

namespace ReadySet.DataflowState.Persistent

open Data Library Dataflow DataflowState List
open Node (ReplicationOffset)

universe u v

variable {V : Type u}

open Signed (negative)

/-! ## Scans -/

theorem isLT_eq_false_of_starts {start key : Bytes} (starts : start <+: key) :
    (Bytes.cmp key start).isLT = false := by
  have below : (Bytes.cmp start key).isLE = true := compareLex_of_starts starts
  have swapped : Bytes.cmp key start = (Bytes.cmp start key).swap := Std.OrientedCmp.eq_swap
  rw [swapped]
  cases order : Bytes.cmp start key <;> simp_all

theorem withPrefix_eq_filter {β : Type v} {entries : List (Bytes × β)}
    (sorted : SortedMap.Sorted Bytes.cmp entries) (keyPrefix : Bytes) :
    withPrefix entries keyPrefix = entries.filter fun entry => keyPrefix.isPrefixOf entry.1 := by
  apply takeWhile_dropWhile
  · intro entry _ before
    cases inside : keyPrefix.isPrefixOf entry.1 with
    | false => rfl
    | true =>
      rw [isLT_eq_false_of_starts (List.isPrefixOf_iff_prefix.mp inside)] at before
      contradiction
  · refine sorted.imp fun {earlier later} order before => ?_
    rw [Ordering.isLT_iff_eq_lt] at before ⊢
    exact Std.TransCmp.lt_trans order before
  · refine sorted.imp fun {earlier later} order above inside => ?_
    rw [List.isPrefixOf_iff_prefix] at inside ⊢
    exact prefix_of_between inside above order

variable {format : ValueFormat V} {state : PersistentState V} {primary : PersistentIndex}
  {secondary : List PersistentIndex}

namespace PersistentState

theorem findRow_eq (keyPrefix : Bytes) (row : Row V) (entries : List (Bytes × Row V)) :
    findRow format keyPrefix row entries =
      match (entries.takeWhile fun entry => keyPrefix.isPrefixOf entry.1).find? fun entry =>
          entry.2.isEqv row format.same with
      | some entry => .ok entry.1
      | none => .error (.internal "tried removing non-existent row") := by
  induction entries with
  | nil => rfl
  | cons head tail ih =>
    obtain ⟨key, value⟩ := head
    rw [findRow]
    cases inside : keyPrefix.isPrefixOf key with
    | false => simp [inside]
    | true =>
      cases equal : value.isEqv row format.same with
      | true => simp [inside, equal]
      | false => simp [inside, equal, ih]

end PersistentState

open PersistentState (alreadyProcessed findRow_eq mem_rows removedKey stage written)

/-! ## Looking for a row to remove -/

variable {row : Row V}

theorem removedKey_of_one (one : primary.holdsOne (primary.buildKey row) = true) (epoch seq : Nat) :
    state.removedKey format primary row = .ok (primary.primaryKey format row epoch seq) := by
  rw [removedKey, if_pos one, primaryKey_eq, if_pos one]
  rfl

theorem removedKey_of_many (many : primary.holdsOne (primary.buildKey row) = false) :
    state.removedKey format primary row = match (state.database.rows.entries.filter fun entry =>
          (serializePrefix format (primary.buildKey row)).isPrefixOf entry.1).find? fun entry =>
            entry.2.isEqv row format.same with
      | some entry => .ok entry.1
      | none => .error (.internal "tried removing non-existent row") := by
  rw [removedKey, if_neg (by simp [many]), findRow_eq]
  rw [← withPrefix_eq_filter state.database.rows.sorted]
  rfl

/-- A row is told from the stored ones. -/
def Readable (format : ValueFormat V) (state : PersistentState V) (row : Row V) : Prop :=
  ∀ other ∈ state.rows, other.isEqv row format.same = true ↔ other = row

variable {pk : Bytes}

theorem mem_of_removedKey (many : primary.holdsOne (primary.buildKey row) = false)
    (legible : Readable format state row) (found : state.removedKey format primary row = .ok pk) :
    (pk, row) ∈ state.database.rows.entries := by
  rw [removedKey_of_many many] at found
  split at found
  · rename_i entry search
    have mem := mem_of_find?_eq_some search
    have equal := find?_some search
    have stored := (mem_filter.mp mem).1
    have same : entry.2 = row :=
      (legible entry.2 (mem_rows.mpr ⟨entry.1, stored⟩)).mp equal
    rw [← Except.ok.inj found, ← same]
    exact stored
  · contradiction

theorem exists_removedKey [DecidableEq V] (inv : Consistent format state)
    (indexed : state.indices = primary :: secondary)
    (many : primary.holdsOne (primary.buildKey row) = false) (legible : Readable format state row)
    (stored : row ∈ state.rows) : ∃ pk, state.removedKey format primary row = .ok pk := by
  obtain ⟨pk, mem⟩ := mem_rows.mp stored
  obtain ⟨epoch, seq, key, _⟩ := inv.keyed_primary indexed mem
  rw [removedKey_of_many many]
  split
  · exact ⟨_, rfl⟩
  · rename_i search
    have starts : (serializePrefix format (primary.buildKey row)).isPrefixOf pk = true := by
      rw [List.isPrefixOf_iff_prefix, key, primaryKey_eq, serializePrefix_prefix_iff]
    have candidate : (pk, row) ∈ state.database.rows.entries.filter fun entry =>
        (serializePrefix format (primary.buildKey row)).isPrefixOf entry.1 :=
      mem_filter.mpr ⟨mem, starts⟩
    exact absurd ((legible row stored).mpr rfl) (find?_eq_none.mp search _ candidate)

/-! ## Staging a batch -/

/-- The state as if the staged writes were committed. -/
def pending (staged : PersistentState V × WriteBatch V) : PersistentState V :=
  staged.1.written staged.2

theorem pending_append (cur : PersistentState V) (batch ops : WriteBatch V) :
    pending (cur, batch ++ ops) = (pending (cur, batch)).written ops := by
  simp [pending, written, Database.write]

/-- The sequence number after a row is inserted. -/
def nextSeq (primary : PersistentIndex) (row : Row V) (seq : Nat) : Nat :=
  if primary.holdsOne (primary.buildKey row) then seq else seq + 1

theorem le_nextSeq (row : Row V) (seq : Nat) : seq ≤ nextSeq primary row seq := by
  unfold nextSeq
  split_ifs
  · exact le_refl seq
  · exact Nat.le_succ seq

theorem lt_nextSeq (many : primary.holdsOne (primary.buildKey row) = false) (seq : Nat) :
    seq < nextSeq primary row seq := by
  unfold nextSeq
  rw [if_neg (by simp [many])]
  exact Nat.lt_succ_self seq

section

variable (indexed : state.indices = primary :: secondary) (seq : Nat) (batch : WriteBatch V)
  (row : Row V)

include indexed

theorem stage_positive :
    stage format ({ state with seq := seq }, batch) (.positive row) =
      .ok ({ state with seq := nextSeq primary row seq }, batch ++ putOperations format secondary row
        (primary.primaryKey format row state.epoch (nextSeq primary row seq))) := by
  unfold stage PersistentState.insert
  simp only [show state.db.inner.indices = primary :: secondary from indexed]
  rfl

theorem stage_negative :
    stage format ({ state with seq := seq }, batch) (.negative row) =
      (state.removedKey format primary row).map fun pk =>
        ({ state with seq := seq }, batch ++ deleteOperations format secondary row pk) := by
  unfold stage PersistentState.remove
  simp only [show state.db.inner.indices = primary :: secondary from indexed]
  cases found : state.removedKey format primary row with
  | error problem | ok pk =>
    rw [show removedKey format { state with seq := seq } primary row = _ from found]
    rfl

end

section

variable [DecidableEq V] {records : List (Record V)}

/-- The batch can be applied one record at a time: a removed row is there, and
the declared unique keys hold all along. -/
structure ValidBatch (state : PersistentState V) (records : List (Record V))
    (after : Multiset (Row V)) : Prop where
  applied : applyAll state.rows records = some after
  respects : ∀ done contents, done <+: records → applyAll state.rows done = some contents →
    Respects state.uniqueKeys contents

/-- A row that is stored before the batch or named in it. -/
def InPlay (state : PersistentState V) (records : List (Record V)) (row : Row V) : Prop :=
  row ∈ state.rows ∨ ∃ record ∈ records, record.value = row

/-- The rows that are removed by a scan are told from the stored ones. -/
def RemovesReadable (format : ValueFormat V) (state : PersistentState V)
    (records : List (Record V)) : Prop :=
  ∀ primary ∈ state.indices.head?, ∀ row, primary.holdsOne (primary.buildKey row) = false →
    .negative row ∈ records → Readable format state row

/-- What `process_records` gets right: a row without a unique key is removed at
most once, and is stored before the batch. -/
def RemovesCommitted (state : PersistentState V) (records : List (Record V)) : Prop :=
  ∀ primary ∈ state.indices.head?, ∀ row, primary.holdsOne (primary.buildKey row) = false →
    records.count (.negative row) ≤ 1 ∧ (.negative row ∈ records → row ∈ state.rows)

/-- The records worked off are staged as they would be applied, and committed
rows without a unique key are still there unless they have been removed. -/
structure Staging (format : ValueFormat V) (state : PersistentState V)
    (primary : PersistentIndex) (done : List (Record V))
    (staged : PersistentState V × WriteBatch V) : Prop where
  base : ∃ seq, staged.1 = { state with seq := seq }
  applied : applyAll state.rows done = some (pending staged).rows
  consistent : Consistent format (pending staged)
  kept : ∀ entry ∈ state.database.rows.entries,
    primary.holdsOne (primary.buildKey entry.2) = false → .negative entry.2 ∉ done →
      entry ∈ (pending staged).database.rows.entries

variable {staged : PersistentState V × WriteBatch V} {offset : Option ReplicationOffset}
  {after : Rows V}

section

variable (indexed : state.indices = primary :: secondary) {done : List (Record V)}
  (staging : Staging format state primary done staged)

include indexed staging

theorem Staging.insert (respects : Respects state.uniqueKeys (row ::ₘ (pending staged).rows))
    (legible : Legible format state.indices fun shown => shown = row ∨ shown ∈ (pending staged).rows) :
    ∃ next, stage format staged (.positive row) = .ok next ∧
      Staging format state primary (done ++ [.positive row]) next := by
  obtain ⟨cur, batch⟩ := staged
  obtain ⟨⟨seq, rfl⟩, applied, inv, kept⟩ := staging
  obtain ⟨consistentNext, rows, still⟩ :=
    inv.put indexed respects legible (le_nextSeq row seq) fun many => lt_nextSeq many seq
  refine ⟨_, stage_positive indexed seq batch row, ⟨_, rfl⟩, ?_, ?_, ?_⟩
  · rw [applyAll_append, applied, pending_append]
    exact congrArg some rows.symm
  · rw [pending_append]
    exact consistentNext
  · intro entry stored many untouched
    rw [pending_append]
    refine still entry (kept entry stored many fun removed => untouched ?_)
    exact mem_append_left _ removed

/-- A removal is staged if the row has a unique key, or is committed and not yet removed. -/
theorem Staging.remove (mem : row ∈ (pending staged).rows)
    (consistentBefore : Consistent format state)
    (committed : primary.holdsOne (primary.buildKey row) = false →
      Readable format state row ∧ row ∈ state.rows ∧ .negative row ∉ done) :
    ∃ next, stage format staged (.negative row) = .ok next ∧
      Staging format state primary (done ++ [.negative row]) next := by
  obtain ⟨cur, batch⟩ := staged
  obtain ⟨⟨seq, rfl⟩, applied, inv, kept⟩ := staging
  -- the key that is deleted is one under which the row is pending
  obtain ⟨pk, found, stored⟩ : ∃ pk, state.removedKey format primary row = .ok pk ∧
      (pk, row) ∈ (pending ({ state with seq := seq }, batch)).database.rows.entries := by
    cases one : primary.holdsOne (primary.buildKey row) with
    | true =>
      obtain ⟨pk, mem⟩ := mem_rows.mp mem
      obtain ⟨epoch, number, rfl, _⟩ := inv.keyed_primary indexed mem
      exact ⟨_, removedKey_of_one one epoch number, mem⟩
    | false =>
      obtain ⟨readable, before, once⟩ := committed one
      obtain ⟨pk, found⟩ := exists_removedKey consistentBefore indexed one readable before
      exact ⟨pk, found, kept _ (mem_of_removedKey one readable found) one once⟩
  obtain ⟨consistentNext, rows, still⟩ := inv.delete indexed stored
  have staged : stage format ({ state with seq := seq }, batch) (.negative row) =
      .ok ({ state with seq := seq }, batch ++ deleteOperations format secondary row pk) := by
    rw [stage_negative indexed, found]
    rfl
  refine ⟨_, staged, ⟨seq, rfl⟩, ?_, ?_, ?_⟩
  · rw [applyAll_append, applied, pending_append]
    have erased : applyOne (pending ({ state with seq := seq }, batch)).rows (.negative row) =
        some ((pending ({ state with seq := seq }, batch)).rows.erase row) :=
      applyOne_negative_eq_some.mpr ⟨mem, rfl⟩
    rw [Option.bind_some, applyAll, erased]
    exact congrArg some rows.symm
  · rw [pending_append]
    exact consistentNext
  · intro entry storedBefore many untouched
    rw [mem_append, not_or, mem_singleton] at untouched
    rw [pending_append]
    refine still entry (kept entry storedBefore many untouched.1) fun same => untouched.2 ?_
    rw [same]

end

/-- A batch that only removes committed rows is staged as a whole. -/
theorem stage_all (inv : Consistent format state) (indexed : state.indices = primary :: secondary)
    (valid : ValidBatch state records after)
    (legible : Legible format state.indices (InPlay state records))
    (readable : RemovesReadable format state records) (removes : RemovesCommitted state records) :
    ∃ staged, records.foldlM (stage format) (state, []) = .ok staged ∧
      Staging format state primary records staged := by
  have start : Staging format state primary [] (state, []) :=
    ⟨⟨state.seq, rfl⟩, rfl, inv, fun entry stored _ _ => stored⟩
  apply foldlM_invariant _ (Staging format state primary) records ?_ start
  intro done record rest staged whole staging
  have named : record ∈ records := by simp [whole]
  have shownRows : ∀ row ∈ (pending staged).rows, InPlay state records row := by
    intro row mem
    rcases mem_of_applyAll staging.applied mem with before | inserted
    · exact .inl before
    · exact .inr ⟨.positive row, by simp [whole, inserted], rfl⟩
  obtain ⟨contents, applied, _⟩ : ∃ contents,
      applyOne (pending staged).rows record = some contents ∧ applyAll contents rest = some after := by
    have split := valid.applied
    rw [whole, applyAll_append, staging.applied] at split
    exact applyAll_cons_eq_some.mp split
  cases record with
  | positive row =>
    have extended : applyAll state.rows (done ++ [.positive row]) =
        some (row ::ₘ (pending staged).rows) := by
      rw [applyAll_append, staging.applied]
      rfl
    apply staging.insert indexed
    · exact valid.respects _ _ ⟨rest, by simp [whole]⟩ extended
    · refine legible.mono fun shown cases => ?_
      rcases cases with rfl | mem
      · exact .inr ⟨.positive shown, named, rfl⟩
      · exact shownRows shown mem
  | negative row =>
    obtain ⟨mem, _⟩ := applyOne_negative_eq_some.mp applied
    refine staging.remove indexed mem inv fun many => ?_
    have isPrimary : primary ∈ state.indices.head? := by rw [indexed]; rfl
    obtain ⟨once, before⟩ := removes primary isPrimary row many
    refine ⟨readable primary isPrimary row many named, before named, fun earlier => ?_⟩
    rw [whole, count_append, count_cons_self] at once
    have counted := count_pos_iff.mpr earlier
    omega

/-! ## Committing -/

/-- What `process_records` makes of a staged batch. -/
def commit (staged : PersistentState V × WriteBatch V) (offset : Option ReplicationOffset) :
    PersistentState V :=
  { staged.1 with db :=
    { replicationOffset := offset.or staged.1.db.replicationOffset,
      inner := { staged.1.db.inner with
        db := staged.1.db.inner.db.write staged.2,
        replicationOffset := offset.or staged.1.db.inner.replicationOffset } } }

omit [DecidableEq V] in
theorem processRecords_eq (fresh : alreadyProcessed offset state.db.replicationOffset = false) :
    state.processRecords format records none offset =
      (records.foldlM (stage format) (state, [])).map fun staged =>
        commit staged offset := by
  unfold PersistentState.processRecords
  rw [if_neg (by simp)]
  split_ifs with nothing stale
  · simp only [Bool.and_eq_true, List.isEmpty_iff, Option.isNone_iff_eq_none] at nothing
    obtain ⟨rfl, rfl⟩ := nothing
    rfl
  · rw [fresh] at stale
    contradiction
  · cases records.foldlM (stage format) (state, []) <;> rfl

/-- A valid batch that removes committed rows only is stored as if it were
applied one record at a time. -/
theorem Consistent.processRecords (inv : Consistent format state)
    (valid : ValidBatch state records after)
    (legible : Legible format state.indices (InPlay state records))
    (readable : RemovesReadable format state records)
    (indexedOrEmpty : state.indices = [] → records = []) (removes : RemovesCommitted state records)
    (fresh : alreadyProcessed offset state.db.replicationOffset = false) :
    ∃ next, state.processRecords format records none offset = .ok next ∧
      Consistent format next ∧ next.rows = after ∧ next.indices = state.indices ∧
      next.uniqueKeys = state.uniqueKeys := by
  rw [processRecords_eq fresh]
  cases indexed : state.indices with
  | nil =>
    obtain rfl := indexedOrEmpty indexed
    have same : state.rows = after := Option.some.inj valid.applied
    refine ⟨commit (state, []) offset, rfl, ?_, same, indexed, rfl⟩
    exact inv.of_same rfl rfl rfl rfl rfl
  | cons primary secondary =>
    obtain ⟨⟨cur, batch⟩, folded, ⟨seq, rfl⟩, applied, kept, _⟩ :=
      stage_all inv indexed valid legible readable removes
    rw [folded]
    refine ⟨_, rfl, kept.of_same rfl rfl rfl rfl rfl, ?_, indexed, rfl⟩
    exact Option.some.inj (applied.symm.trans valid.applied)

/-! ## What goes wrong otherwise -/

/-- The count of a row without a unique key while a batch is staged: only its
first removal has an effect. -/
structure Tally (format : ValueFormat V) (state : PersistentState V) (primary : PersistentIndex)
    (row : Row V) (done : List (Record V)) (seq : Nat) (rows : Family (Row V)) : Prop where
  later : state.seq ≤ seq
  /-- Rows without a unique key are committed ones or stand under new numbers. -/
  origin : ∀ pk other, (pk, other) ∈ rows.entries →
    primary.holdsOne (primary.buildKey other) = false →
      (pk, other) ∈ state.database.rows.entries ∨
        ∃ number, state.seq < number ∧ number ≤ seq ∧
          pk = primary.primaryKey format other state.epoch number
  first : ∀ pk, state.removedKey format primary row = .ok pk →
    ((pk, row) ∈ rows.entries ↔ .negative row ∉ done)
  count : rows.values.count row + (if .negative row ∈ done then 1 else 0) =
    state.rows.count row + done.count (.positive row)

section

variable {done : List (Record V)} {seq : Nat} {rows : Family (Row V)}

theorem Tally.start (many : primary.holdsOne (primary.buildKey row) = false)
    (legible : Readable format state row) :
    Tally format state primary row [] state.seq state.database.rows where
  later := le_refl _
  origin _ _ stored _ := .inl stored
  first pk found := iff_of_true (mem_of_removedKey many legible found) not_mem_nil
  count := by
    rfl

variable (inv : Consistent format state) (indexed : state.indices = primary :: secondary)
  (tally : Tally format state primary row done seq rows)
include inv indexed tally

/-- A key under which a row without a unique key is pending is no key of a new
row. -/
theorem Tally.unused {other : Row V} (mem : (pk, other) ∈ rows.entries)
    (many : primary.holdsOne (primary.buildKey other) = false) (inserted : Row V) :
    pk ≠ primary.primaryKey format inserted state.epoch (nextSeq primary inserted seq) := by
  intro same
  have later := tally.later
  rcases tally.origin pk other mem many with stored | ⟨number, _, notAfter, rfl⟩
  · obtain ⟨epoch, number, rfl, earlier⟩ := inv.keyed_primary indexed stored
    obtain ⟨insertedMany, epochs, numbers⟩ := primaryKey_inj_of_many same many
    have above := lt_nextSeq insertedMany seq
    omega
  · obtain ⟨insertedMany, _, numbers⟩ := primaryKey_inj_of_many same many
    have above := lt_nextSeq insertedMany seq
    omega

variable (many : primary.holdsOne (primary.buildKey row) = false)
include many

theorem Tally.insert (legible : Readable format state row) {inserted : Row V}
    (new : pk = primary.primaryKey format inserted state.epoch (nextSeq primary inserted seq)) :
    Tally format state primary row (done ++ [.positive inserted]) (nextSeq primary inserted seq)
      (rows.insert pk inserted) := by
  have unused : (pk, row) ∉ rows.entries :=
    fun mem => tally.unused inv indexed mem many inserted new
  have removed : .negative row ∈ done ++ [.positive inserted] ↔ .negative row ∈ done := by simp
  refine ⟨tally.later.trans (le_nextSeq inserted seq), ?_, ?_, ?_⟩
  · intro key other mem isMany
    rcases BTreeMap.mem_insert.mp mem with here | ⟨_, old⟩
    · obtain ⟨rfl, rfl⟩ := Prod.mk.inj here
      exact .inr ⟨_, tally.later.trans_lt (lt_nextSeq isMany seq), le_refl _, new⟩
    · refine (tally.origin key other old isMany).imp_right ?_
      rintro ⟨number, isNew, notAfter, rfl⟩
      exact ⟨number, isNew, notAfter.trans (le_nextSeq inserted seq), rfl⟩
  · intro key found
    -- the committed row is not overwritten: its number is too small
    have ne : key ≠ pk := by
      obtain ⟨epoch, number, rfl, earlier⟩ :=
        inv.keyed_primary indexed (mem_of_removedKey many legible found)
      intro same
      obtain ⟨insertedMany, epochs, numbers⟩ := primaryKey_inj_of_many (same.trans new) many
      have above := lt_nextSeq insertedMany seq
      have later := tally.later
      omega
    rw [BTreeMap.mem_insert, removed, ← tally.first key found]
    constructor
    · rintro (here | ⟨_, old⟩)
      · exact absurd (Prod.mk.inj here).1 ne
      · exact old
    · exact fun old => .inr ⟨ne, old⟩
  · have counted := BTreeMap.count_insert inserted unused
    have total := tally.count
    rw [counted]
    by_cases same : inserted = row
    · subst same
      simp
      omega
    · simp [same, Ne.symm same]
      omega

section

variable {removed : Row V} (legible : primary.holdsOne (primary.buildKey removed) = false →
  Readable format state removed)

include legible

/-- The key of a removed row is not one under which a different row without a
unique key is pending. -/
theorem Tally.elsewhere (found : state.removedKey format primary removed = .ok pk)
    (ne : removed ≠ row) : (pk, row) ∉ rows.entries ∧ (pk, row) ∉ state.database.rows.entries := by
  cases one : primary.holdsOne (primary.buildKey removed) with
  | true =>
    -- a key that names one row has no number after it
    have notBoth : ∀ epoch number, pk ≠ primary.primaryKey format row epoch number := by
      intro epoch number same
      rw [removedKey_of_one one 0 0] at found
      have removedMany := primaryKey_inj_of_many ((Except.ok.inj found).trans same).symm many
      cases one.symm.trans removedMany.1
    have notStored : (pk, row) ∉ state.database.rows.entries := by
      intro stored
      obtain ⟨epoch, number, key, _⟩ := inv.keyed_primary indexed stored
      exact notBoth epoch number key
    refine ⟨fun mem => ?_, notStored⟩
    rcases tally.origin pk row mem many with stored | ⟨number, _, _, key⟩
    · exact notStored stored
    · exact notBoth state.epoch number key
  | false =>
    have stored := mem_of_removedKey one (legible one) found
    have notStored : (pk, row) ∉ state.database.rows.entries :=
      fun other => ne (BTreeMap.value_unique stored other)
    refine ⟨fun mem => ?_, notStored⟩
    rcases tally.origin pk row mem many with other | ⟨number, isNew, _, key⟩
    · exact notStored other
    · obtain ⟨epoch, old, oldKey, earlier⟩ := inv.keyed_primary indexed stored
      have numbers := (primaryKey_inj_of_many (oldKey.symm.trans key) one).2
      omega

/-- A removal, in the tally of one row. -/
theorem Tally.remove (readable : Readable format state row)
    (found : state.removedKey format primary removed = .ok pk) :
    Tally format state primary row (done ++ [.negative removed]) seq (rows.remove pk) := by
  have total := tally.count
  have origin : ∀ key other, (key, other) ∈ (rows.remove pk).entries →
      primary.holdsOne (primary.buildKey other) = false →
        (key, other) ∈ state.database.rows.entries ∨ ∃ number, state.seq < number ∧ number ≤ seq ∧
            key = primary.primaryKey format other state.epoch number :=
    fun key other mem => tally.origin key other (BTreeMap.mem_remove.mp mem).2
  have noPositive : (done ++ [negative removed]).count (.positive row) =
      done.count (.positive row) := by
    simp
  by_cases same : removed = row
  · subst same
    have isRemoved : negative removed ∈ done ++ [negative removed] := by simp
    refine ⟨tally.later, origin, ?_, ?_⟩
    · intro key foundAgain
      obtain rfl : pk = key := Except.ok.inj (found.symm.trans foundAgain)
      refine iff_of_false (fun mem => (BTreeMap.mem_remove.mp mem).1 rfl) fun absent => ?_
      exact absent isRemoved
    · rw [if_pos isRemoved, noPositive]
      by_cases before : negative removed ∈ done
      · -- the row is gone already: the removal has no effect
        have gone : (pk, removed) ∉ rows.entries := fun mem => (tally.first pk found).mp mem before
        rw [BTreeMap.count_remove gone]
        rwa [if_pos before] at total
      · have mem := (tally.first pk found).mpr before
        rw [BTreeMap.values_remove mem, Multiset.count_cons_self, if_neg before] at total
        omega
  · obtain ⟨absent, notStored⟩ := tally.elsewhere inv indexed many legible found same
    have untouched : negative row ∈ done ++ [negative removed] ↔
        negative row ∈ done := by simp [Ne.symm same]
    refine ⟨tally.later, origin, ?_, ?_⟩
    · intro key foundRow
      have ne : key ≠ pk := by
        rintro rfl
        exact notStored (mem_of_removedKey many readable foundRow)
      rw [BTreeMap.mem_remove, untouched, ← tally.first key foundRow]
      exact and_iff_right ne
    · simp only [untouched]
      rw [BTreeMap.count_remove absent, noPositive]
      exact total

end

omit tally in
/-- What a staged batch leaves of a row without a unique key. -/
theorem tally_all (legible : RemovesReadable format state records)
    (named : .negative row ∈ records)
    (folded : records.foldlM (stage format) (state, []) = .ok staged) :
    (∃ pk, state.removedKey format primary row = .ok pk) ∧
      (∃ seq, Tally format state primary row records seq (pending staged).database.rows) := by
  have readable (removed : Row V) (listed : .negative removed ∈ records)
      (one : primary.holdsOne (primary.buildKey removed) = false) : Readable format state removed :=
    legible primary (by rw [indexed]; rfl) removed one listed
  have whole := foldlM_ok_invariant (stage format)
    (fun done staged => ∃ seq batch, staged = ({ state with seq := seq }, batch) ∧
      (.negative row ∈ done → ∃ pk, state.removedKey format primary row = .ok pk) ∧
      Tally format state primary row done seq (pending staged).database.rows)
    records ?_ ⟨state.seq, [], rfl, fun none => absurd none not_mem_nil,
      Tally.start many (readable row named many)⟩ folded
  · obtain ⟨seq, _, _, removed, tally⟩ := whole
    exact ⟨removed named, seq, tally⟩
  rintro done record rest staged next whole ⟨seq, batch, rfl, removedBefore, tally⟩ stepped
  have listed : record ∈ records := by simp [whole]
  cases record with
  | positive inserted =>
    rw [stage_positive indexed] at stepped
    obtain rfl := Except.ok.inj stepped
    refine ⟨_, _, rfl, fun mem => removedBefore (by simpa using mem), ?_⟩
    rw [pending_append]
    have rows := (write_putOperations format (inv.distinct indexed)
      (pending ({ state with seq := seq }, batch)).database inserted
      (primary.primaryKey format inserted state.epoch (nextSeq primary inserted seq))).1
    have next : Tally format state primary row (done ++ [.positive inserted]) _
        ((pending ({ state with seq := seq }, batch)).database.rows.insert _ inserted) :=
      tally.insert inv indexed many (readable row named many) rfl
    rw [← rows] at next
    exact next
  | negative removed =>
    rw [stage_negative indexed] at stepped
    obtain ⟨pk, found, rfl⟩ := map_eq_ok.mp stepped
    refine ⟨_, _, rfl, ?_, ?_⟩
    · intro mem
      rcases mem_append.mp mem with before | here
      · exact removedBefore before
      · obtain rfl : row = removed := by simpa using here
        exact ⟨pk, found⟩
    · rw [pending_append]
      have rows := (write_deleteOperations format (inv.distinct indexed)
        (pending ({ state with seq := seq }, batch)).database removed pk).1
      have next := tally.remove inv indexed many (readable removed listed)
        (readable row named many) found
      rw [← rows] at next
      exact next

end

end

/-! ## Examples of batches -/

def pairRow (left right : Int) : Row (Datum Empty) := [.value (.int left), .value (.int right)]

end ReadySet.DataflowState.Persistent
