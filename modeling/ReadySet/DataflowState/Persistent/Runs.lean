import ReadySet.Data.Written
import ReadySet.DataflowState.Persistent.Lookup

/-!
Owns the life of a base table: records written one at a time, indices added,
the database reopened. In every state reached the database is consistent, and
lookups are exact for the keys that the written form tells apart from those of
the stored rows.
-/

namespace ReadySet.DataflowState.Persistent

open Data Library Dataflow DataflowState
open PersistentIndex (buildKey writtenLike holdsOne reads)
open PersistentState (stage alreadyProcessed addPrimaryIndex addKey lookup lookupMulti)
open Node (ReplicationOffset)

universe u

/-! ## Steps -/

/-- What happens to a base table. -/
inductive Step (V : Type u) where
  | write (record : Record V) (offset : Option ReplicationOffset)
  | addKey (index : Index)
  | reopen

/-- One step, with the record it applies. -/
def step {V : Type u} (format : ValueFormat V) (state : PersistentState V) :
    Step V → ReadySetResult (Option (Record V) × PersistentState V)
  | .write record offset =>
    (state.processRecords format [record] none offset).map fun next =>
      (if PersistentState.alreadyProcessed offset state.db.replicationOffset then none
        else some record, next)
  | .addKey index => (state.addKey format index none).map fun next => (none, next)
  | .reopen => .ok (none, state.reopen)

/-! ## What every step keeps -/

variable {offset : Option ReplicationOffset} {index : Index}

section

variable {V : Type u} {format : ValueFormat V} {state next : PersistentState V}

/-- A handle reads at the offset of its state. -/
def Level (state : PersistentState V) : Prop :=
  state.db.replicationOffset = state.db.inner.replicationOffset

theorem stage_db {staged after : PersistentState V × WriteBatch V} {record : Record V}
    (stages : stage format staged record = .ok after) : after.1.db = staged.1.db := by
  cases record with
  | positive row =>
    simp only [stage, PersistentState.insert] at stages
    split at stages
    · contradiction
    · obtain rfl := Except.ok.inj stages
      rfl
  | negative row =>
    obtain ⟨batch, removed, stages⟩ := bind_eq_ok.mp stages
    obtain rfl := Except.ok.inj stages
    rfl

theorem Level.processRecords {records : List (Record V)} (level : Level state)
    (fresh : alreadyProcessed offset state.db.replicationOffset = false)
    (processed : state.processRecords format records none offset = .ok next) : Level next := by
  rw [processRecords_eq fresh] at processed
  obtain ⟨staged, folded, rfl⟩ := map_eq_ok.mp processed
  have kept : staged.1.db = state.db := by
    refine foldlM_ok_invariant _ (fun _ staged => staged.1.db = state.db) records ?_ rfl folded
    intro done record rest before after _ same stages
    exact (stage_db stages).trans same
  change offset.or staged.1.db.replicationOffset = offset.or staged.1.db.inner.replicationOffset
  rw [kept, level]

theorem Level.addKey (level : Level state) (added : state.addKey format index none = .ok next) :
    Level next ∧ next.uniqueKeys = state.uniqueKeys := by
  have primary : ∀ cols isUnique, Level (state.addPrimaryIndex cols isUnique) ∧
      (state.addPrimaryIndex cols isUnique).uniqueKeys = state.uniqueKeys := by
    intro cols isUnique
    unfold addPrimaryIndex
    split_ifs <;> exact ⟨level, rfl⟩
  simp only [PersistentState.addKey] at added
  split_ifs at added <;> obtain rfl := Except.ok.inj added
  · exact ⟨level, rfl⟩
  · exact primary _ _
  · exact primary _ _
  · exact ⟨level, rfl⟩

theorem isBehind_of_level (level : Level state) :
    isBehind state.db.replicationOffset state.db.inner.replicationOffset = false := by
  rw [level]
  cases state.db.inner.replicationOffset with
  | none => rfl
  | some offset => simp [isBehind]

/-- An index that `add_key` adds has its columns, and is unique if they are. -/
theorem mem_addKey (added : state.addKey format index none = .ok next)
    {listed : PersistentIndex} (mem : listed ∈ next.indices) :
    listed ∈ state.indices ∨ listed.index.columns = index.columns ∧
      listed.isUnique = checkIfIndexIsUnique state.uniqueKeys index.columns := by
  have primary : ∀ isUnique, ∀ listed ∈ (state.addPrimaryIndex index.columns isUnique).indices,
      listed ∈ state.indices ∨ listed.index.columns = index.columns ∧
        listed.isUnique = isUnique := by
    intro isUnique listed mem
    unfold addPrimaryIndex at mem
    split_ifs at mem
    · obtain rfl := List.mem_singleton.mp mem
      exact .inr ⟨rfl, rfl⟩
    · exact .inl mem
  simp only [addKey, Option.isSome_none, Bool.false_eq_true] at added
  split_ifs at added <;> obtain rfl := Except.ok.inj added
  · exact .inl mem
  · exact primary _ listed mem
  · rcases List.mem_append.mp mem with earlier | last
    · exact primary _ listed earlier
    · obtain rfl := List.mem_singleton.mp last
      exact .inr ⟨rfl, rfl⟩
  · rcases List.mem_append.mp mem with earlier | last
    · exact .inl earlier
    · obtain rfl := List.mem_singleton.mp last
      exact .inr ⟨rfl, rfl⟩

def HashedPrimary (state : PersistentState V) : Prop :=
  ∀ index ∈ state.indices.head?, index.index.indexType = .hashMap

section

variable (hashed : HashedPrimary state) {isUnique : Bool}

include hashed

theorem hashedPrimary_addPrimaryIndex {cols : List Nat} :
    HashedPrimary (state.addPrimaryIndex cols isUnique) := by
  unfold addPrimaryIndex
  split_ifs
  · rintro index (_ | _)
    rfl
  · exact hashed

theorem hashedPrimary_addSecondaryIndex (indexed : state.indices ≠ []) :
    HashedPrimary (state.addSecondaryIndex format index isUnique) := by
  obtain ⟨primary, secondary, listed⟩ := List.exists_cons_of_ne_nil indexed
  have kept : (state.addSecondaryIndex format index isUnique).indices.head? =
      state.indices.head? := by
    change (state.indices ++ _).head? = _
    rw [listed]
    rfl
  intro first isFirst
  exact hashed first (kept ▸ isFirst)

theorem HashedPrimary.addKey (added : state.addKey format index none = .ok next) :
    HashedPrimary next := by
  simp only [PersistentState.addKey, Option.isSome_none, Bool.false_eq_true, if_false] at added
  split_ifs at added with _ unindexed <;> obtain rfl := Except.ok.inj added
  · exact hashed
  · exact hashedPrimary_addPrimaryIndex hashed
  · refine hashedPrimary_addSecondaryIndex (hashedPrimary_addPrimaryIndex hashed) ?_
    simp [addPrimaryIndex, unindexed]
  · refine hashedPrimary_addSecondaryIndex hashed (fun none => ?_)
    exact absurd (List.isEmpty_iff.mpr none) (by assumption)

end

end

/-! ## Runs -/

section

variable {X : Type} [DecidableEq X]

/-- A row with a value of the type of its column, or NULL, in every column. -/
def RowTyped (schema : Nat → Kind) (row : Row (Datum X)) : Prop :=
  ∀ column, (row.at column).Typed (schema column)

/-- Where the columns have unique values, rows with complete keys that are
written alike have the same key. -/
def KeysApart (env : Externals X) (uniqueKeys : List (List Nat)) (columns : List Nat)
    (rows : Multiset (Row (Datum X))) : Prop :=
  checkIfIndexIsUnique uniqueKeys columns = true → ∀ row ∈ rows, ∀ other ∈ rows,
    hasNull (row.clonedIndices columns) = false → hasNull (other.clonedIndices columns) = false →
      Key.serialize env (row.clonedIndices columns) =
        Key.serialize env (other.clonedIndices columns) →
      row.clonedIndices columns = other.clonedIndices columns

/-- The steps that a run may take: what is written is typed, keeps the unique
keys, and removes stored rows only; the stored form tells unique keys apart, and
a row that is removed by a scan from the stored ones. -/
def Admissible (env : Externals X) (schema : Nat → Kind)
    (state : PersistentState (Datum X)) : Step (Datum X) → Prop
  | .write record offset =>
    PersistentState.alreadyProcessed offset state.db.replicationOffset = false →
      state.indices ≠ [] ∧ RowTyped schema record.value ∧
      (∃ after, ValidBatch state [record] after) ∧
      Legible (.ofExternals env) state.indices (InPlay state [record]) ∧
      RemovesReadable (.ofExternals env) state [record]
  | .addKey index => KeysApart env state.uniqueKeys index.columns state.rows
  | .reopen => True

/-- What holds in every state of a run. -/
structure Kept (env : Externals X) (schema : Nat → Kind)
    (state : PersistentState (Datum X)) : Prop where
  consistent : Consistent (.ofExternals env) state
  legible : Legible (.ofExternals env) state.indices fun row => row ∈ state.rows
  typed : ∀ row ∈ state.rows, RowTyped schema row
  level : Level state
  hashed : HashedPrimary state

variable {env : Externals X} {schema : Nat → Kind} {state : PersistentState (Datum X)}
  {row : Row (Datum X)} {uniqueKeys : List (List Nat)}

section

variable (kept : Kept env schema state)

include kept

/-- An admissible write keeps the invariant. -/
theorem Kept.write {record : Record (Datum X)}
    (fresh : alreadyProcessed offset state.db.replicationOffset = false)
    (admissible : Admissible env schema state (.write record offset)) :
    ∃ next, state.processRecords (.ofExternals env) [record] none offset = .ok next ∧
      applyAll state.rows [record] = some next.rows ∧ Kept env schema next := by
  obtain ⟨indexed, typed, ⟨after, valid⟩, legible, readable⟩ := admissible fresh
  have removes : RemovesCommitted state [record] := by
    intro primary _ row _
    refine ⟨List.count_le_length, fun listed => ?_⟩
    obtain rfl := List.mem_singleton.mp listed
    obtain ⟨_, applied, _⟩ := applyAll_cons_eq_some.mp valid.applied
    by_contra missing
    rw [applyOne, if_neg missing] at applied
    contradiction
  obtain ⟨next, processed, inv, rfl, indices, _⟩ := kept.consistent.processRecords valid
    legible readable (fun none => absurd none indexed) removes fresh
  have shown : ∀ row ∈ next.rows, InPlay state [record] row := by
    intro row stored
    rcases mem_of_applyAll valid.applied stored with before | added
    · exact .inl before
    · exact .inr ⟨_, added, rfl⟩
  refine ⟨next, processed, valid.applied, inv, ?_, ?_,
    kept.level.processRecords fresh processed, ?_⟩
  · rw [indices]
    exact legible.mono shown
  · intro row stored
    rcases shown row stored with before | ⟨other, listed, rfl⟩
    · exact kept.typed row before
    · obtain rfl := List.mem_singleton.mp listed
      exact typed
  · unfold HashedPrimary
    rw [indices]
    exact kept.hashed

theorem Kept.addKey (apart : KeysApart env state.uniqueKeys index.columns state.rows) :
    ∃ next, state.addKey (.ofExternals env) index none = .ok next ∧
      next.rows = state.rows ∧ Kept env schema next := by
  have legible : ∀ next, state.addKey (.ofExternals env) index none = .ok next →
      Legible (.ofExternals env) next.indices fun row => row ∈ state.rows := by
    intro next added listed mem isUnique row other stored otherStored
    rcases mem_addKey added mem with earlier | ⟨cols, unique⟩
    · exact kept.legible listed earlier isUnique row other stored otherStored
    · unfold buildKey
      rw [cols]
      exact apart (unique ▸ isUnique) row stored other otherStored
  obtain ⟨next, added, inv, rows⟩ := kept.consistent.addKey legible
  refine ⟨next, added, rows, inv, ?_, ?_, (kept.level.addKey added).1, kept.hashed.addKey added⟩
  · rw [rows]
    exact legible next added
  · rw [rows]
    exact kept.typed

theorem Kept.reopen : Kept env schema state.reopen := by
  obtain ⟨inv, rows, indices⟩ := kept.consistent.reopen
  refine ⟨inv, ?_, ?_, rfl, ?_⟩
  · rw [indices]
    exact kept.legible
  · rw [rows]
    exact kept.typed
  · unfold HashedPrimary
    rw [indices]
    exact kept.hashed

end

theorem kept_new : Kept env schema (PersistentState.new uniqueKeys) := by
  obtain ⟨inv, rows⟩ := consistent_new (.ofExternals env) uniqueKeys
  have none : ∀ row, row ∉ (PersistentState.new uniqueKeys : PersistentState (Datum X)).rows := by
    intro row stored
    rw [rows] at stored
    exact Multiset.notMem_zero row stored
  refine ⟨inv, ?_, fun row stored => absurd stored (none row), ?_, ?_⟩
  · exact fun _ _ _ row _ stored => absurd stored (none row)
  · cases uniqueKeys <;> rfl
  · cases uniqueKeys with
    | nil => exact fun index isPrimary => absurd isPrimary (Option.not_mem_none index)
    | cons first others =>
      have bare : HashedPrimary
          ({ uniqueKeys := first :: others, epoch := 1 } : PersistentState (Datum X)) :=
        fun index isPrimary => absurd isPrimary (Option.not_mem_none index)
      exact hashedPrimary_addPrimaryIndex bare

/-- The invariant holds in every state of an admissible run. -/
theorem run_kept {steps : List (Step (Datum X))}
    (along : Along (step (.ofExternals env)) (Admissible env schema)
      (PersistentState.new uniqueKeys) steps) :
    ∃ trace final, run (step (.ofExternals env)) (PersistentState.new uniqueKeys) steps =
        .ok (trace, final) ∧
      applyAll 0 (trace.filterMap Prod.snd) = some final.rows ∧ Kept env schema final := by
  refine run_along_trace _ (fun trace final =>
    applyAll 0 (trace.filterMap Prod.snd) = some final.rows ∧ Kept env schema final) ?_ ?_ along
  · rintro trace state input ⟨applied, kept⟩ admissible
    -- a step that applies no record leaves the rows as they are
    have same : ∀ next : PersistentState (Datum X), next.rows = state.rows →
        applyAll 0 ((trace ++ [(input, none)]).filterMap Prod.snd) = some next.rows := by
      intro next rows
      rw [rows]
      simpa using applied
    cases input with
    | write record offset =>
      cases old : alreadyProcessed offset state.db.replicationOffset with
      | true =>
        refine ⟨none, state, ?_, same state rfl, kept⟩
        simp [step, PersistentState.processRecords, old, Except.map]
      | false =>
        obtain ⟨next, processed, written, keptNext⟩ := kept.write old admissible
        refine ⟨some record, next, ?_, ?_, keptNext⟩
        · rw [step, processed, old]
          rfl
        · rw [List.filterMap_append, applyAll_append, applied]
          exact written
    | addKey index =>
      obtain ⟨next, added, rows, keptNext⟩ := kept.addKey admissible
      refine ⟨none, next, ?_, same next rows, keptNext⟩
      rw [step, added]
      rfl
    | reopen =>
      refine ⟨none, state.reopen, rfl, same _ ?_, kept.reopen⟩
      exact kept.consistent.reopen.2.1
  · exact ⟨by rw [(consistent_new (.ofExternals env) uniqueKeys).2]; rfl, kept_new⟩

/-- The stored rows have a key exactly if their keys are written like it; an
index of unique values keeps rows with NULL in their keys apart from it, except
that `lookup_multi` takes them for the one row of a key that no row has. -/
structure Discerned (env : Externals X) (isUnique : Bool) (columns : List Nat)
    (rows : Multiset (Row (Datum X))) (key : Key (Datum X)) : Prop where
  alike_iff : ∀ row ∈ rows,
    (Key.WrittenAlike env (row.clonedIndices columns) key ∧
      (isUnique = true → hasNull key = false → hasNull (row.clonedIndices columns) = false)) ↔
    (row.clonedIndices columns).isEqv key (DfValue.same env) = true
  held : isUnique = true → hasNull key = false →
    (∃ row ∈ rows, Key.WrittenAlike env (row.clonedIndices columns) key) →
      ∃ row ∈ rows, (row.clonedIndices columns).isEqv key (DfValue.same env) = true

/-- `lookup` of each key and `lookup_multi` of all of them return the rows that
have them. -/
def LookupsExact (env : Externals X) (state : PersistentState (Datum X)) (columns : List Nat)
    (keys : List (Key (Datum X))) : Prop :=
  (∀ key ∈ keys, ∃ found, state.lookup (.ofExternals env) columns key = .ok (.some found) ∧
    (found : Multiset (Row (Datum X))) = state.rowsWithKey (.ofExternals env) columns key) ∧
  ∃ results, state.lookupMulti (.ofExternals env) columns keys = .ok results ∧
    List.Forall₂ (fun key (found : List (Row (Datum X))) => (found : Multiset (Row (Datum X))) =
      state.rowsWithKey (.ofExternals env) columns key) keys results

omit [DecidableEq X] in
theorem RowTyped.key (typed : RowTyped schema row) (cols : List Nat) :
    Key.Typed (cols.map schema) (row.clonedIndices cols) := by
  rw [Key.Typed, Row.clonedIndices, List.forall₂_map_left_iff, List.forall₂_map_right_iff,
    List.forall₂_same]
  exact fun col _ => typed col

variable {index : PersistentIndex}

section

omit [DecidableEq X]

variable {key : Key (Datum X)}

theorem writtenLike_iff (typed : RowTyped schema row)
    (keyTyped : Key.Typed (index.index.columns.map schema) key) :
    index.writtenLike (.ofExternals env) key row = true ↔
      Key.WrittenAlike env (row.clonedIndices index.index.columns) key := by
  rw [writtenLike, decide_eq_true_iff]
  exact Key.serialize_eq_iff (typed.key index.index.columns) keyTyped

/-- Whether bytes discern the rows of a key, by the values. -/
theorem discerns_iff (typed : ∀ row ∈ state.rows, RowTyped schema row)
    (keyTyped : Key.Typed (index.index.columns.map schema) key) :
    index.Discerns (.ofExternals env) state key ↔
      Discerned env index.isUnique index.index.columns state.rows key := by
  have one : ∀ key : Key (Datum X), index.holdsOne key = true ↔
      index.isUnique = true ∧ hasNull key = false := by
    simp [holdsOne]
  have reads : ∀ row ∈ state.rows, index.reads (.ofExternals env) key row = true ↔
      Key.WrittenAlike env (row.clonedIndices index.index.columns) key ∧
        (index.isUnique = true → hasNull key = false →
          hasNull (row.clonedIndices index.index.columns) = false) := by
    intro row stored
    rw [reads, Bool.and_eq_true, writtenLike_iff (typed row stored) keyTyped]
    cases isUnique : index.isUnique <;> cases null : hasNull key <;>
      simp [holdsOne, buildKey, isUnique, null]
  have written : (∃ row ∈ state.rows, index.writtenLike (.ofExternals env) key row = true) ↔
      ∃ row ∈ state.rows, Key.WrittenAlike env (row.clonedIndices index.index.columns) key := by
    constructor
    · rintro ⟨row, stored, alike⟩
      exact ⟨row, stored, (writtenLike_iff (typed row stored) keyTyped).mp alike⟩
    · rintro ⟨row, stored, alike⟩
      exact ⟨row, stored, (writtenLike_iff (typed row stored) keyTyped).mpr alike⟩
  constructor
  · rintro ⟨reads_iff, held⟩
    refine ⟨fun row stored => (reads row stored).symm.trans (reads_iff row stored), ?_⟩
    intro isUnique complete alike
    exact held ((one key).mpr ⟨isUnique, complete⟩) (written.mpr alike)
  · rintro ⟨alike_iff, held⟩
    refine ⟨fun row stored => (reads row stored).trans (alike_iff row stored), ?_⟩
    intro holdsOne alike
    obtain ⟨isUnique, complete⟩ := (one key).mp holdsOne
    exact held isUnique complete (written.mp alike)

theorem exists_index (listed : index ∈ state.indices) :
    ∃ used ∈ state.indices, used.index = index.index ∧
      state.db.inner.index index.index.indexType index.index.columns = .ok used := by
  cases found : state.indices.find? fun existing =>
      existing.index = ⟨index.index.indexType, index.index.columns⟩ with
  | none =>
    rw [List.find?_eq_none] at found
    exact absurd (by simp) (found index listed)
  | some used =>
    have same : used.index = index.index := by simpa using List.find?_some found
    refine ⟨used, List.mem_of_find?_eq_some found, same, ?_⟩
    simp only [SharedState.index]
    rw [show state.db.inner.indices.find? _ = some used from found]

/-- `lookup` and `lookup_multi` are right for keys that are looked up exactly. -/
theorem lookupsExact_iff (level : Level state)
    (found : state.db.inner.index .hashMap index.index.columns = .ok index)
    (keys : List (Key (Datum X))) :
    LookupsExact env state index.index.columns keys ↔
      ∀ key ∈ keys, index.Exact (.ofExternals env) state key := by
  have lookup : ∀ key, state.lookup (.ofExternals env) index.index.columns key =
      (index.lookupRows (.ofExternals env) state.database key).map .some := by
    intro key
    rw [lookup, PersistentStateHandle.lookup,
      if_neg (by simp [isBehind_of_level level]), found]
  have lookupMulti : state.lookupMulti (.ofExternals env) index.index.columns keys =
      keys.mapM (index.lookupOne (.ofExternals env) state.database) := by
    rw [lookupMulti, PersistentStateHandle.lookupMulti]
    cases keys with
    | nil => rfl
    | cons head tail =>
      rw [if_neg (by simp), found]
  rw [LookupsExact, lookupMulti, exists_mapM_iff]
  constructor
  · rintro ⟨single, multiple⟩ key mem
    obtain ⟨rows, looked, exact_⟩ := single key mem
    obtain ⟨foundOne, lookedOne, exactOne⟩ := multiple key mem
    rw [lookup] at looked
    obtain ⟨readRows, read, same⟩ := map_eq_ok.mp looked
    obtain rfl : readRows = rows := by simpa using same
    exact ⟨readRows, foundOne, read, lookedOne, exact_, exactOne⟩
  · intro all
    refine ⟨fun key mem => ?_, fun key mem => ?_⟩
    · obtain ⟨rows, _, read, _, exact_, _⟩ := all key mem
      refine ⟨rows, ?_, exact_⟩
      rw [lookup, read]
      rfl
    · obtain ⟨_, foundOne, _, readOne, _, exactOne⟩ := all key mem
      exact ⟨foundOne, readOne, exactOne⟩

end

/-- In every state that a base table reaches, lookups in an index return the
rows that have the keys exactly if the written form tells the keys from those of
the stored rows. -/
theorem run_lookupsExact_iff {uniqueKeys : List (List Nat)} {steps : List (Step (Datum X))}
    (along : Along (step (.ofExternals env)) (Admissible env schema)
      (PersistentState.new uniqueKeys) steps) :
    ∃ trace final, run (step (.ofExternals env)) (PersistentState.new uniqueKeys) steps =
        .ok (trace, final) ∧
      applyAll 0 (trace.filterMap Prod.snd) = some final.rows ∧
      ∀ index ∈ final.indices, index.index.indexType = .hashMap → ∀ keys : List (Key (Datum X)),
        (∀ key ∈ keys, Key.Typed (index.index.columns.map schema) key) →
          (LookupsExact env final index.index.columns keys ↔
            ∀ key ∈ keys, Discerned env index.isUnique index.index.columns final.rows key) := by
  obtain ⟨trace, final, ran, applied, kept⟩ := run_kept along
  refine ⟨trace, final, ran, applied, ?_⟩
  intro index listed isHash keys typed
  obtain ⟨used, usedListed, same, found⟩ := exists_index listed
  rw [isHash] at found
  -- the index that is used may be another one of the same columns
  have flag : used.isUnique = index.isUnique := by
    rw [kept.consistent.flags used usedListed, kept.consistent.flags index listed, same]
  rw [← flag, ← same]
  rw [← same] at found typed
  rw [lookupsExact_iff kept.level found]
  refine forall₂_congr fun key member => ?_
  rw [kept.consistent.exact_iff usedListed, discerns_iff kept.typed (typed key member)]

end

/-! ## Examples of lookups -/

/-- A row of a text or NULL and a number. -/
def labelled (label : DfValue (Datum Empty)) (number : Int) : Row (Datum Empty) :=
  [label, .value (.int number)]

/-- The text without characters. -/
def emptyText : DfValue (Datum Empty) := .value (.text .utf8 [])

/-- In a key of two columns the empty text is written like NULL: `lookup` of one
returns the rows of the other, and with a unique index `lookup_multi` returns a
row with NULL for a key that no row has. -/
theorem emptyText_found_as_null :
    (∃ trace final,
      run (step (.ofExternals .ascii)) (PersistentState.new [])
        [.addKey ⟨.hashMap, [0, 1]⟩, .write (.positive (labelled .none 1)) none,
          .write (.positive (labelled emptyText 1)) none] = .ok (trace, final) ∧
      final.rowsWithKey (.ofExternals .ascii) [0, 1] [emptyText, .value (.int 1)] =
        {labelled emptyText 1} ∧
      final.lookup (.ofExternals .ascii) [0, 1] [emptyText, .value (.int 1)] =
        .ok (.some [labelled .none 1, labelled emptyText 1])) ∧
    ∃ trace final,
      run (step (.ofExternals .ascii)) (PersistentState.new [[0, 1]])
        [.write (.positive (labelled .none 1)) none] = .ok (trace, final) ∧
      final.rowsWithKey (.ofExternals .ascii) [0, 1] [emptyText, .value (.int 1)] = 0 ∧
      final.lookupMulti (.ofExternals .ascii) [0, 1] [[emptyText, .value (.int 1)]] =
        .ok [[labelled .none 1]] := by
  refine ⟨⟨_, _, rfl, ?_, rfl⟩, _, _, rfl, ?_, rfl⟩
  · decide
  · decide

/-- An index on both columns, and three rows. -/
def threeRows (indexType : IndexType) : List (Step (Datum Empty)) :=
  [.addKey ⟨indexType, [0, 1]⟩, .write (.positive (pairRow 1 2)) none,
    .write (.positive (pairRow 1 3)) none, .write (.positive (pairRow 2 2)) none]

/-- Without unique keys, rows of numbers may always be written. -/
theorem admissible_pairRow {state : PersistentState (Datum Empty)} {left right : Int}
    (indexed : state.indices ≠ []) (anyKeys : state.uniqueKeys = [])
    (notUnique : ∀ index ∈ state.indices, index.isUnique = false) :
    Admissible .ascii (fun _ => .int) state (.write (.positive (pairRow left right)) none) := by
  refine fun _ => ⟨indexed, ?_, ⟨_, rfl, ?_⟩, ?_, ?_⟩
  · rintro (_ | _ | col) <;> trivial
  · intro _ _ _ _ unique declared
    rw [anyKeys] at declared
    exact absurd declared List.not_mem_nil
  · intro index listed isUnique
    cases (notUnique index listed).symm.trans isUnique
  · intro _ _ row _ removed
    simp at removed

theorem threeRows_admissible (indexType : IndexType) :
    Along (step (.ofExternals .ascii)) (Admissible .ascii fun _ => .int) (PersistentState.new [])
      (threeRows indexType) := by
  cases indexType <;>
    exact along_cons _ (fun isUnique => absurd isUnique (by decide)) rfl
      (along_cons _ (admissible_pairRow (by decide) rfl (by decide)) rfl
        (along_cons _ (admissible_pairRow (by decide) rfl (by decide)) rfl
          (along_cons _ (admissible_pairRow (by decide) rfl (by decide)) rfl trivial)))

/-- A key that two rows share in its first column, and one that is not stored. -/
theorem run_lookupsExact_threeRows :
    ∃ trace final,
      run (step (.ofExternals .ascii)) (PersistentState.new []) (threeRows .hashMap) =
        .ok (trace, final) ∧
      LookupsExact .ascii final [0, 1]
        [[.value (.int 1), .value (.int 2)], [.value (.int 1), .none]] := by
  have discerned : ∀ key ∈ [[.value (.int 1), .value (.int 2)], [.value (.int 1), .none]],
      Discerned .ascii false [0, 1] ([pairRow 1 2, pairRow 1 3, pairRow 2 2] : List _) key := by
    intro key listed
    refine ⟨fun row stored => ?_, fun isUnique => absurd isUnique (by decide)⟩
    simp only [Multiset.mem_coe, List.mem_cons, List.not_mem_nil, or_false] at stored listed
    rcases stored with rfl | rfl | rfl <;> rcases listed with rfl | rfl <;>
      simp [Key.WrittenAlike, DfValue.WrittenAlike, pairRow, Row.clonedIndices, Row.at, DfValue.same,
        Datum.same, List.isEqv]
  obtain ⟨trace, final, ran, _, exact_⟩ := run_lookupsExact_iff (threeRows_admissible .hashMap)
  refine ⟨trace, final, ran, ?_⟩
  obtain ⟨_, rfl⟩ := ok_pair_inj ran
  refine (exact_ _ List.mem_cons_self rfl _ ?_).mpr discerned
  simp only [List.forall_mem_cons, List.not_mem_nil, false_imp_iff, implies_true, and_true]
  exact ⟨.cons rfl (.cons rfl .nil), .cons rfl (.cons trivial .nil)⟩

end ReadySet.DataflowState.Persistent
