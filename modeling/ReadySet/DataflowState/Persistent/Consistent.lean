import ReadySet.Library.Sections
import ReadySet.DataflowState.Persistent.State

/-!
Owns what holds in the database of a base table between writes (`Consistent`):
every row stands under a primary key built from it, and every secondary index
has exactly one entry per row, which points to it. The invariant survives
writing one row, deleting one stored row, adding an index and reopening.

What the invariant needs from the values is that the complete keys of unique
indices are told apart by their written form (`Legible`).
-/

namespace ReadySet.DataflowState.Persistent

open Data Library Dataflow DataflowState BTreeMap List Function
open PersistentIndex

universe u v

variable {V : Type u} {pk : Bytes}

/-! ## Keys -/

theorem writeVarint_ne_nil (number : Nat) : writeVarint number ≠ [] := by
  intro empty
  have read := readVarint_writeVarint number []
  rw [empty] at read
  contradiction

section

variable {format : ValueFormat V} {index : PersistentIndex} {row other : Row V}
  {key otherKey : Key V} {extra : Bytes}

theorem serializeKey_inj {otherExtra : Bytes}
    (same : serializeKey format key extra = serializeKey format otherKey otherExtra) :
    format.serialize key = format.serialize otherKey ∧ extra = otherExtra :=
  Codec.block.append_inj same

theorem serializePrefix_prefix_iff :
    serializePrefix format key <+: serializeKey format otherKey extra ↔
      format.serialize otherKey = format.serialize key := by
  constructor
  · intro starts
    have starting : Codec.block.encode (format.serialize key) <+:
        Codec.block.encode (format.serialize otherKey) ++ extra := by
      rwa [serializePrefix, serializeKey, append_nil] at starts
    exact (Codec.block.eq_of_starts starting).symm
  · intro same
    rw [serializePrefix, serializeKey, serializeKey, same, append_nil]
    exact prefix_append _ extra

theorem prefixTransform_serializeKey (key : Key V) (extra : Bytes) :
    prefixTransform (serializeKey format key extra) = serializePrefix format key := by
  rw [prefixTransform, serializeKey, append_assoc, readVarint_writeVarint]
  rw [serializePrefix, serializeKey, append_nil, ← append_assoc]
  apply take_left'
  rw [length_append]

theorem entryKey_eq (serializedPk : Bytes) :
    index.entryKey format row serializedPk = serializeKey format (index.buildKey row)
      (if index.holdsOne (index.buildKey row) then [] else serializedPk) := by
  cases one : index.holdsOne (index.buildKey row) with
  | true => simp [entryKey, one, serializePrefix]
  | false => simp [entryKey, one, serializeSecondary, serializeKey]

theorem primaryKey_eq (epoch seq : Nat) :
    index.primaryKey format row epoch seq = serializeKey format (index.buildKey row)
      (if index.holdsOne (index.buildKey row) then [] else writeVarint epoch ++ writeVarint seq) := by
  cases one : index.holdsOne (index.buildKey row) <;> simp [primaryKey, one, serializePrefix]

theorem primaryKey_ne_nil (epoch seq : Nat) : index.primaryKey format row epoch seq ≠ [] := by
  rw [primaryKey_eq, serializeKey, append_assoc]
  exact append_ne_nil_of_left_ne_nil (writeVarint_ne_nil _) _

/-- Two entries of a secondary index share a key only if both rows are the one
row of a written key, or both point to the same place. -/
theorem entryKey_inj {otherPk : Bytes} (mem : pk ≠ []) (otherPresent : otherPk ≠ [])
    (same : index.entryKey format row pk = index.entryKey format other otherPk) :
    (index.holdsOne (index.buildKey row) = true ∧ index.holdsOne (index.buildKey other) = true ∧
      format.serialize (index.buildKey row) = format.serialize (index.buildKey other)) ∨
    pk = otherPk := by
  rw [entryKey_eq, entryKey_eq] at same
  obtain ⟨written, suffixes⟩ := serializeKey_inj same
  split_ifs at suffixes with one otherOne otherOne
  · exact .inl ⟨one, otherOne, written⟩
  · exact absurd suffixes.symm otherPresent
  · exact absurd suffixes mem
  · exact .inr suffixes

section

variable {epoch seq otherEpoch otherSeq : Nat}
  (same : index.primaryKey format row epoch seq = index.primaryKey format other otherEpoch otherSeq)

include same

/-- Two rows share a primary key only if both are the one row of a written key,
or both were written at the same time. -/
theorem primaryKey_inj :
    (index.holdsOne (index.buildKey row) = true ∧ index.holdsOne (index.buildKey other) = true ∧
      format.serialize (index.buildKey row) = format.serialize (index.buildKey other)) ∨
    (index.holdsOne (index.buildKey row) = false ∧ index.holdsOne (index.buildKey other) = false ∧
      epoch = otherEpoch ∧ seq = otherSeq) := by
  rw [primaryKey_eq, primaryKey_eq] at same
  obtain ⟨written, suffixes⟩ := serializeKey_inj same
  have nonempty : ∀ first second : Nat, writeVarint first ++ writeVarint second ≠ [] :=
    fun first second => append_ne_nil_of_left_ne_nil (writeVarint_ne_nil first) _
  split_ifs at suffixes with one otherOne otherOne
  · exact .inl ⟨one, otherOne, written⟩
  · exact absurd suffixes.symm (nonempty _ _)
  · exact absurd suffixes (nonempty _ _)
  · have paired : (epoch, seq) = (otherEpoch, otherSeq) :=
      (Codec.varint.pair Codec.varint).encode_injective suffixes
    exact .inr ⟨by simpa using one, by simpa using otherOne, Prod.mk.inj paired⟩

theorem primaryKey_inj_of_many (many : index.holdsOne (index.buildKey row) = false) :
    index.holdsOne (index.buildKey other) = false ∧ epoch = otherEpoch ∧ seq = otherSeq := by
  rcases primaryKey_inj same with ⟨one, _⟩ | ⟨_, numbers⟩
  · exact absurd (many.symm.trans one) Bool.false_ne_true
  · exact numbers

end

end

/-! ## Unique keys -/

section

variable [DecidableEq V]

/-- No two rows have the same values, none of them NULL, in the columns of a
declared unique key. -/
def Respects (uniqueKeys : List (List Nat)) (rows : Multiset (Row V)) : Prop :=
  ∀ unique ∈ uniqueKeys, ∀ key : Key V, hasNull key = false → (matching rows unique key).card ≤ 1

variable {rows : Rows V} {uniqueKeys : List (List Nat)}

theorem Respects.mono {fewer : Rows V}
    (respects : Respects uniqueKeys rows) (below : fewer ≤ rows) : Respects uniqueKeys fewer := by
  intro unique declared key complete
  exact (Multiset.card_le_card (Multiset.filter_le_filter _ below)).trans
    (respects unique declared key complete)

/-- No stored row has the complete unique key of another. -/
theorem Respects.not_same_key {row other : Row V} {cols : List Nat}
    (respects : Respects uniqueKeys (row ::ₘ rows)) (stored : other ∈ rows)
    (isUnique : checkIfIndexIsUnique uniqueKeys cols = true)
    (complete : hasNull (row.clonedIndices cols) = false) :
    row.clonedIndices cols ≠ other.clonedIndices cols := by
  intro same
  simp only [checkIfIndexIsUnique, any_eq_true, all_eq_true, contains_iff_mem] at isUnique
  obtain ⟨unique, declared, inside⟩ := isUnique
  have agree : ∀ col ∈ cols, row.at col = other.at col :=
    fun col mem => map_inj_left.mp same col mem
  have sameUnique : other.clonedIndices unique = row.clonedIndices unique :=
    map_inj_left.mpr fun col mem => (agree col (inside col mem)).symm
  have uniqueComplete : hasNull (row.clonedIndices unique) = false := by
    simp only [hasNull, Row.clonedIndices, any_map, any_eq_false] at complete ⊢
    exact fun col mem => complete col (inside col mem)
  have both : matching (row ::ₘ rows) unique (row.clonedIndices unique) =
      row ::ₘ matching rows unique (row.clonedIndices unique) :=
    Multiset.filter_cons_of_pos rows rfl
  have found : other ∈ matching rows unique (row.clonedIndices unique) :=
    Multiset.mem_filter.mpr ⟨stored, sameUnique⟩
  have atMost := respects unique declared _ uniqueComplete
  rw [both, Multiset.card_cons] at atMost
  have atLeast := Multiset.card_pos_iff_exists_mem.mpr ⟨other, found⟩
  omega

end

/-- The complete keys that the rows in play have in a unique index are equal if
they are written alike. -/
def Legible (format : ValueFormat V) (indices : List PersistentIndex)
    (inPlay : Row V → Prop) : Prop :=
  ∀ index ∈ indices, index.isUnique = true → ∀ row other, inPlay row → inPlay other →
    hasNull (index.buildKey row) = false → hasNull (index.buildKey other) = false →
    format.serialize (index.buildKey row) = format.serialize (index.buildKey other) →
      index.buildKey row = index.buildKey other

theorem Legible.mono {format : ValueFormat V} {indices : List PersistentIndex}
    {inPlay fewer : Row V → Prop} (legible : Legible format indices inPlay)
    (below : ∀ row, fewer row → inPlay row) : Legible format indices fewer :=
  fun index mem isUnique row other isRow isOther =>
    legible index mem isUnique row other (below row isRow) (below other isOther)

/-! ## Writing to the database -/

namespace PersistentState

variable (state : PersistentState V)

abbrev indices : List PersistentIndex := state.db.inner.indices

abbrev database : Database V := state.db.inner.db

/-- The state once a batch of writes is committed. -/
def written (batch : WriteBatch V) : PersistentState V :=
  { state with db.inner.db := state.database.write batch }

end PersistentState

/-- One operation for each index changes its own column family only. -/
theorem Database.write_families (op : PersistentIndex → BatchOperation V)
    (change : PersistentIndex → Family Bytes → Family Bytes)
    (effect : ∀ index (db : Database V), db.apply (op index) =
      { db with
        families := update db.families index.columnFamily
          (change index (db.families index.columnFamily)) })
    {indices : List PersistentIndex} (nodup : (indices.map columnFamily).Nodup) (db : Database V) :
    (db.write (indices.map op)).rows = db.rows ∧
      (∀ index ∈ indices, (db.write (indices.map op)).families index.columnFamily =
        change index (db.families index.columnFamily)) ∧
      ∀ family ∉ indices.map columnFamily,
        (db.write (indices.map op)).families family = db.families family := by
  induction indices generalizing db with
  | nil => exact ⟨rfl, by simp, fun _ _ => rfl⟩
  | cons head tail ih =>
    obtain ⟨apart, tailDistinct⟩ := nodup_cons.mp nodup
    obtain ⟨rows, changed, unchanged⟩ := ih tailDistinct (db.apply (op head))
    have unfolded : db.write ((head :: tail).map op) =
        (db.apply (op head)).write (tail.map op) := rfl
    rw [unfolded, effect] at *
    refine ⟨rows, ?_, ?_⟩
    · intro index mem
      rcases mem_cons.mp mem with rfl | later
      · exact (unchanged _ apart).trans (update_self ..)
      · have ne : index.columnFamily ≠ head.columnFamily := by
          intro same
          exact apart (same ▸ mem_map_of_mem later)
        rw [changed index later]
        exact congrArg (change index) (update_of_ne ne ..)
    · intro family outside
      rw [map_cons, mem_cons, not_or] at outside
      exact (unchanged family outside.2).trans (update_of_ne outside.1 ..)

/-! ## The invariant -/

section

variable [DecidableEq V] (format : ValueFormat V)

/-- An index has one entry per stored row, which points to it, and no others. -/
def PointsToRows (db : Database V) (index : PersistentIndex) : Prop :=
  ∀ key pk, (key, pk) ∈ (db.families index.columnFamily).entries ↔
    ∃ row, (pk, row) ∈ db.rows.entries ∧ key = index.entryKey format row pk

/-- What holds between writes. -/
structure Consistent (state : PersistentState V) : Prop where
  families : state.indices.map PersistentIndex.columnFamily = List.range state.indices.length
  flags : ∀ index ∈ state.indices,
    index.isUnique = checkIfIndexIsUnique state.uniqueKeys index.index.columns
  primary : ∀ index ∈ state.indices.head?, index.isPrimary = true
  secondary : ∀ index ∈ state.indices.tail, index.isPrimary = false
  unindexed : state.indices = [] → state.database.rows.entries = []
  /-- A row stands under its primary key; the sequence numbers to come are new. -/
  keyed : ∀ index ∈ state.indices.head?, ∀ entry ∈ state.database.rows.entries, ∃ epoch seq,
    entry.1 = index.primaryKey format entry.2 epoch seq ∧
      (epoch < state.epoch ∨ epoch = state.epoch ∧ seq ≤ state.seq)
  pointed : ∀ index ∈ state.indices.tail, PointsToRows format state.database index
  respects : Respects state.uniqueKeys state.rows

variable {format} {state : PersistentState V} {primary : PersistentIndex}
  {secondary : List PersistentIndex}

theorem Consistent.distinct (inv : Consistent format state)
    (indexed : state.indices = primary :: secondary) : (secondary.map columnFamily).Nodup := by
  have numbered : (state.indices.map columnFamily).Nodup := by
    rw [inv.families]
    exact nodup_range
  rw [indexed] at numbered
  exact (nodup_cons.mp numbered).2

variable {index : PersistentIndex}

omit [DecidableEq V] in
theorem mem_secondary (indexed : state.indices = primary :: secondary)
    (isSecondary : index ∈ state.indices.tail) : index ∈ secondary := by
  rwa [indexed] at isSecondary

variable {row : Row V}

section

variable (inv : Consistent format state) (indexed : state.indices = primary :: secondary)

include inv indexed

theorem Consistent.keyed_primary (stored : (pk, row) ∈ state.database.rows.entries) :
    ∃ epoch seq, pk = primary.primaryKey format row epoch seq ∧
      (epoch < state.epoch ∨ epoch = state.epoch ∧ seq ≤ state.seq) :=
  inv.keyed primary (by rw [indexed]; rfl) (pk, row) stored

theorem Consistent.pointed_secondary (mem : index ∈ secondary) :
    PointsToRows format state.database index :=
  inv.pointed index (by rw [indexed]; exact mem)

end

omit [DecidableEq V] in
theorem PersistentState.mem_rows :
    row ∈ state.rows ↔ ∃ pk, (pk, row) ∈ state.database.rows.entries := by
  rw [PersistentState.rows, values, Multiset.mem_coe, mem_map]
  constructor
  · rintro ⟨⟨pk, found⟩, mem, rfl⟩
    exact ⟨pk, mem⟩
  · rintro ⟨pk, mem⟩
    exact ⟨(pk, row), mem, rfl⟩

/-- Rows that agree on a unique index do not stand side by side. -/
theorem not_both {other : Row V}
    (respects : Respects state.uniqueKeys (row ::ₘ state.rows)) (stored : other ∈ state.rows)
    (flag : index.isUnique = checkIfIndexIsUnique state.uniqueKeys index.index.columns)
    (legible : Legible format state.indices fun shown => shown = row ∨ shown ∈ state.rows)
    (listed : index ∈ state.indices) (one : index.holdsOne (index.buildKey row) = true)
    (otherOne : index.holdsOne (index.buildKey other) = true)
    (written : format.serialize (index.buildKey row) = format.serialize (index.buildKey other)) :
    False := by
  simp only [holdsOne, Bool.and_eq_true, Bool.not_eq_true'] at one otherOne
  have same := legible index listed one.1 row other (.inl rfl) (.inr stored) one.2
    otherOne.2 written
  exact respects.not_same_key stored (flag ▸ one.1) one.2 same

/-! ## Writing a row -/

/-- What `insert` adds to a batch. -/
def putOperations (format : ValueFormat V) (secondary : List PersistentIndex) (row : Row V)
    (pk : Bytes) : WriteBatch V :=
  .putRow pk row :: secondary.map fun index =>
    .put index.columnFamily (index.entryKey format row pk) pk

omit [DecidableEq V] in
variable (format) in
theorem write_putOperations (nodup : (secondary.map columnFamily).Nodup) (db : Database V)
    (row : Row V) (pk : Bytes) :
    (db.write (putOperations format secondary row pk)).rows = db.rows.insert pk row ∧
      ∀ index ∈ secondary, (db.write (putOperations format secondary row pk)).families
        index.columnFamily =
          (db.families index.columnFamily).insert (index.entryKey format row pk) pk := by
  have spread := Database.write_families
    (fun index => .put index.columnFamily (index.entryKey format row pk) pk)
    (fun index family => family.insert (index.entryKey format row pk) pk) (fun _ _ => rfl)
    nodup (db.apply (.putRow pk row))
  exact ⟨spread.1, spread.2.1⟩

section

variable (inv : Consistent format state) (indexed : state.indices = primary :: secondary)
  (respects : Respects state.uniqueKeys (row ::ₘ state.rows))
  (legible : Legible format state.indices fun shown => shown = row ∨ shown ∈ state.rows) {seq : Nat}

include inv indexed respects legible

/-- The primary key that `insert` gives a row is new. -/
theorem Consistent.fresh_key
    (later : primary.holdsOne (primary.buildKey row) = false → state.seq < seq) :
    ∀ entry ∈ state.database.rows.entries,
      entry.1 ≠ primary.primaryKey format row state.epoch seq := by
  rintro ⟨pk, other⟩ stored same
  have listed : primary ∈ state.indices := by simp [indexed]
  obtain ⟨epoch, number, rfl, earlier⟩ := inv.keyed_primary indexed stored
  rcases primaryKey_inj same with ⟨otherOne, one, written⟩ | ⟨_, many, epochs, numbers⟩
  · exact not_both respects (PersistentState.mem_rows.mpr ⟨_, stored⟩)
      (inv.flags primary listed) legible listed one otherOne written.symm
  · have past := later many
    omega

/-- Writing a row with its entries keeps the indices consistent. -/
theorem Consistent.put (notBefore : state.seq ≤ seq)
    (later : primary.holdsOne (primary.buildKey row) = false → state.seq < seq) :
    let pk := primary.primaryKey format row state.epoch seq
    let next := { state with seq := seq }.written (putOperations format secondary row pk)
    Consistent format next ∧ next.rows = row ::ₘ state.rows ∧
      ∀ entry ∈ state.database.rows.entries, entry ∈ next.database.rows.entries := by
  intro pk next
  have fresh := inv.fresh_key indexed respects legible later
  obtain ⟨rows, families⟩ := write_putOperations format (inv.distinct indexed)
    state.database row pk
  have nextRows : next.database.rows = state.database.rows.insert pk row := rows
  have rowsAfter : next.rows = row ::ₘ state.rows := by
    rw [PersistentState.rows, PersistentState.rows, ← values_insert row fresh, ← rows]
    rfl
  refine ⟨?_, rowsAfter, fun entry stored => ?_⟩
  case refine_2 =>
    rw [nextRows, mem_insert]
    exact .inr ⟨fresh entry stored, stored⟩
  exact
    { inv with
      unindexed := fun empty => absurd (indexed.symm.trans empty) (by simp)
      keyed := by
        intro index isPrimary entry mem
        have isFirst : index ∈ state.indices.head? := isPrimary
        rw [indexed] at isFirst
        obtain rfl := Option.some.inj isFirst
        rw [nextRows, mem_insert] at mem
        rcases mem with rfl | ⟨_, stored⟩
        · exact ⟨state.epoch, seq, rfl, .inr ⟨rfl, le_refl seq⟩⟩
        · obtain ⟨epoch, number, key, earlier⟩ := inv.keyed_primary indexed stored
          refine ⟨epoch, number, key, earlier.imp_right fun both => ⟨both.1, ?_⟩⟩
          exact both.2.trans notBefore
      pointed := by
        intro index mem key pointed
        have inSecondary := mem_secondary indexed mem
        have listed : index ∈ state.indices := by rw [indexed]; exact mem_cons_of_mem _ inSecondary
        have before := inv.pointed_secondary indexed inSecondary
        have family : next.database.families index.columnFamily =
            (state.database.families index.columnFamily).insert (index.entryKey format row pk) pk :=
          families index inSecondary
        -- no entry of the index has the key of the new one
        have unused : ∀ other otherPk, (otherPk, other) ∈ state.database.rows.entries →
            index.entryKey format other otherPk ≠ index.entryKey format row pk := by
          intro other otherPk stored same
          obtain ⟨epoch, number, otherKey, _⟩ := inv.keyed_primary indexed stored
          have present : otherPk ≠ [] := by rw [otherKey]; exact primaryKey_ne_nil _ _
          rcases entryKey_inj present (primaryKey_ne_nil _ _) same with
            ⟨otherOne, one, written⟩ | samePk
          · exact not_both respects (PersistentState.mem_rows.mpr ⟨_, stored⟩)
              (inv.flags index listed) legible listed one otherOne written.symm
          · exact fresh _ stored samePk
        rw [family, mem_insert, before key pointed, nextRows]
        constructor
        · rintro (here | ⟨_, other, stored, rfl⟩)
          · obtain ⟨rfl, rfl⟩ := Prod.mk.inj here
            exact ⟨row, mem_insert.mpr (.inl rfl), rfl⟩
          · exact ⟨other, mem_insert.mpr (.inr ⟨fresh _ stored, stored⟩), rfl⟩
        · rintro ⟨other, stored, rfl⟩
          rcases mem_insert.mp stored with here | ⟨_, old⟩
          · obtain ⟨rfl, rfl⟩ := Prod.mk.inj here
            exact .inl rfl
          · exact .inr ⟨unused other pointed old, other, old, rfl⟩
      respects := rowsAfter.symm ▸ respects }

end

/-! ## Deleting a row -/

/-- What `remove` adds to a batch. -/
def deleteOperations (format : ValueFormat V) (secondary : List PersistentIndex) (row : Row V)
    (pk : Bytes) : WriteBatch V :=
  .deleteRow pk :: secondary.map fun index =>
    .delete index.columnFamily (index.entryKey format row pk)

omit [DecidableEq V] in
variable (format) in
theorem write_deleteOperations (nodup : (secondary.map columnFamily).Nodup) (db : Database V)
    (row : Row V) (pk : Bytes) :
    (db.write (deleteOperations format secondary row pk)).rows = db.rows.remove pk ∧
      ∀ index ∈ secondary, (db.write (deleteOperations format secondary row pk)).families
        index.columnFamily =
          (db.families index.columnFamily).remove (index.entryKey format row pk) := by
  have spread := Database.write_families
    (fun index => .delete index.columnFamily (index.entryKey format row pk))
    (fun index family => family.remove (index.entryKey format row pk)) (fun _ _ => rfl)
    nodup (db.apply (.deleteRow pk))
  exact ⟨spread.1, spread.2.1⟩

/-- So does deleting a stored row with its entries. -/
theorem Consistent.delete (inv : Consistent format state)
    (indexed : state.indices = primary :: secondary)
    (stored : (pk, row) ∈ state.database.rows.entries) :
    let next := state.written (deleteOperations format secondary row pk)
    Consistent format next ∧ next.rows = state.rows.erase row ∧
      ∀ entry ∈ state.database.rows.entries, entry.2 ≠ row →
        entry ∈ next.database.rows.entries := by
  intro next
  obtain ⟨rows, families⟩ :=
    write_deleteOperations format (inv.distinct indexed) state.database row pk
  have nextRows : next.database.rows = state.database.rows.remove pk := rows
  have rowsAfter : state.rows = row ::ₘ next.rows := by
    have taken := values_remove stored
    rw [← rows] at taken
    exact taken
  have erased : next.rows = state.rows.erase row := by rw [rowsAfter, Multiset.erase_cons_head]
  refine ⟨?_, erased, fun entry present ne => ?_⟩
  case refine_2 =>
    rw [nextRows, mem_remove]
    refine ⟨fun same => ne ?_, present⟩
    obtain ⟨other, found⟩ := entry
    obtain rfl : other = pk := same
    exact value_unique present stored
  exact
    { inv with
      unindexed := fun empty => absurd (indexed.symm.trans empty) (by simp)
      keyed := by
        intro index isPrimary entry mem
        rw [nextRows, mem_remove] at mem
        exact inv.keyed index isPrimary entry mem.2
      pointed := by
        intro index mem key pointed
        have inSecondary := mem_secondary indexed mem
        have before := inv.pointed_secondary indexed inSecondary
        have family : next.database.families index.columnFamily =
            (state.database.families index.columnFamily).remove (index.entryKey format row pk) :=
          families index inSecondary
        rw [family, mem_remove, before key pointed, nextRows]
        constructor
        · rintro ⟨ne, other, present, rfl⟩
          refine ⟨other, mem_remove.mpr ⟨?_, present⟩, rfl⟩
          rintro rfl
          rw [value_unique present stored] at ne
          exact ne rfl
        · rintro ⟨other, present, rfl⟩
          obtain ⟨ne, old⟩ := mem_remove.mp present
          refine ⟨fun same => ne ?_, other, old, rfl⟩
          -- a key of the index points to one place only
          have here := (before _ pointed).mpr ⟨other, old, rfl⟩
          have there := (before _ pk).mpr ⟨row, stored, rfl⟩
          rw [show index.entryKey format other pointed = index.entryKey format row pk from same]
            at here
          exact value_unique here there
      respects := by
        rw [erased]
        exact inv.respects.mono (Multiset.erase_le row state.rows) }

/-! ## Indices -/

omit [DecidableEq V] in
theorem Database.write_puts (family : Nat) (added : List (Bytes × Bytes)) (db : Database V) :
    (db.write (added.map fun entry => .put family entry.1 entry.2)).rows = db.rows ∧
      (db.write (added.map fun entry => .put family entry.1 entry.2)).families =
        update db.families family
          (added.foldl (fun map entry => map.insert entry.1 entry.2) (db.families family)) := by
  induction added generalizing db with
  | nil => exact ⟨rfl, (update_eq_self family db.families).symm⟩
  | cons head tail ih =>
    obtain ⟨rows, families⟩ := ih (db.apply (.put family head.1 head.2))
    refine ⟨rows, families.trans ?_⟩
    simp [Database.apply]

variable (inv : Consistent format state)
include inv

theorem entryKey_nodup (indexed : state.indices = primary :: secondary)
    {indices : List PersistentIndex} (listed : index ∈ indices)
    (flag : index.isUnique = checkIfIndexIsUnique state.uniqueKeys index.index.columns)
    (legible : Legible format indices fun shown => shown ∈ state.rows) :
    ((state.database.rows.entries.map fun entry =>
      (index.entryKey format entry.2 entry.1, entry.1)).map Prod.fst).Nodup := by
  rw [map_map]
  refine List.Nodup.map_on ?_ (entries_nodup _)
  rintro ⟨pk, row⟩ stored ⟨otherPk, other⟩ otherStored same
  obtain ⟨_, _, key, _⟩ := inv.keyed_primary indexed stored
  obtain ⟨_, _, otherKey, _⟩ := inv.keyed_primary indexed otherStored
  have mem : pk ≠ [] := by rw [key]; exact primaryKey_ne_nil _ _
  have otherPresent : otherPk ≠ [] := by rw [otherKey]; exact primaryKey_ne_nil _ _
  rcases entryKey_inj mem otherPresent same with ⟨one, otherOne, written⟩ | rfl
  · by_contra ne
    have split : state.rows = row ::ₘ (state.database.rows.remove pk).values := values_remove stored
    have elsewhere : other ∈ (state.database.rows.remove pk).values := by
      refine Multiset.mem_coe.mpr (mem_map.mpr ⟨(otherPk, other), ?_, rfl⟩)
      refine mem_remove.mpr ⟨fun samePk => ne ?_, otherStored⟩
      obtain rfl : otherPk = pk := samePk
      rw [value_unique otherStored stored]
    simp only [holdsOne, Bool.and_eq_true, Bool.not_eq_true'] at one otherOne
    have sameKey := legible index listed one.1 row other
      (PersistentState.mem_rows.mpr ⟨pk, stored⟩)
      (PersistentState.mem_rows.mpr ⟨otherPk, otherStored⟩) one.2 otherOne.2 written
    have respects := inv.respects
    rw [split] at respects
    exact respects.not_same_key elsewhere (flag ▸ one.1) one.2 sameKey
  · rw [value_unique stored otherStored]

/-- A new secondary index is filled from the stored rows. -/
theorem Consistent.addSecondaryIndex
    (indexed : state.indices = primary :: secondary) {index : Index}
    (legible : Legible format (state.addSecondaryIndex format index
      (checkIfIndexIsUnique state.uniqueKeys index.columns)).indices
        fun shown => shown ∈ state.rows) :
    Consistent format (state.addSecondaryIndex format index
        (checkIfIndexIsUnique state.uniqueKeys index.columns)) ∧
      (state.addSecondaryIndex format index
        (checkIfIndexIsUnique state.uniqueKeys index.columns)).rows = state.rows := by
  let added : PersistentIndex :=
    ⟨state.indices.length, index, checkIfIndexIsUnique state.uniqueKeys index.columns, false⟩
  let next := state.addSecondaryIndex format index added.isUnique
  let entries := state.database.rows.entries.map fun entry =>
    (added.entryKey format entry.2 entry.1, entry.1)
  let cleared : Database V :=
    ⟨state.database.rows, update state.database.families added.columnFamily ∅⟩
  have empty : cleared.families added.columnFamily = ∅ := update_self ..
  obtain ⟨rows, families⟩ := Database.write_puts added.columnFamily entries cleared
  rw [map_map] at rows families
  have nextRows : next.database.rows = state.database.rows := rows
  have nextIndices : next.indices = state.indices ++ [added] := rfl
  have nextFamilies : next.database.families = update cleared.families
      added.columnFamily (entries.foldl (fun map entry => map.insert entry.1 entry.2) ∅) := by
    rw [empty] at families
    exact families
  have distinctKeys := entryKey_nodup inv indexed
    (by rw [nextIndices]; exact mem_append_right _ mem_cons_self) rfl legible
  have headSame : next.indices.head? = state.indices.head? := by rw [nextIndices, indexed]; rfl
  have tailSame : next.indices.tail = state.indices.tail ++ [added] := by
    rw [nextIndices, indexed]
    rfl
  refine ⟨?_, by rw [PersistentState.rows, PersistentState.rows, nextRows]⟩
  exact
    { families := by
        rw [nextIndices, map_append, inv.families, length_append]
        exact range_succ.symm
      flags := by
        intro other mem
        rw [nextIndices, mem_append, mem_singleton] at mem
        rcases mem with old | rfl
        · exact inv.flags other old
        · rfl
      primary := by
        rw [headSame]
        exact inv.primary
      secondary := by
        intro other mem
        rw [tailSame, mem_append, mem_singleton] at mem
        rcases mem with old | rfl
        · exact inv.secondary other old
        · rfl
      unindexed := fun empty => absurd empty (by rw [nextIndices]; simp)
      keyed := by
        intro other isPrimary entry mem
        rw [headSame] at isPrimary
        rw [nextRows] at mem
        exact inv.keyed other isPrimary entry mem
      pointed := by
        intro other mem key pk
        rw [tailSame, mem_append, mem_singleton] at mem
        rw [nextFamilies, nextRows]
        rcases mem with old | rfl
        · have number : other.columnFamily ∈ state.indices.map columnFamily :=
            mem_map_of_mem (mem_of_mem_tail old)
          rw [inv.families, mem_range] at number
          have ne : other.columnFamily ≠ added.columnFamily := number.ne
          rw [update_of_ne ne]
          have kept : cleared.families other.columnFamily =
              state.database.families other.columnFamily := update_of_ne ne ..
          rw [kept]
          exact inv.pointed other old key pk
        · rw [update_self, mem_foldl_insert distinctKeys
            (fun entry mem => absurd mem not_mem_nil)]
          constructor
          · rintro (mem | impossible)
            · obtain ⟨entry, stored, same⟩ := mem_map.mp mem
              obtain ⟨rfl, rfl⟩ := Prod.mk.inj same
              exact ⟨entry.2, stored, rfl⟩
            · exact absurd impossible not_mem_nil
          · rintro ⟨row, stored, rfl⟩
            exact .inl (mem_map.mpr ⟨(pk, row), stored, rfl⟩)
      respects := by
        have rowsSame : next.rows = state.rows := by
          rw [PersistentState.rows, PersistentState.rows, nextRows]
        exact rowsSame.symm ▸ inv.respects }

/-- The first index is the primary one. -/
theorem Consistent.addPrimaryIndex (unindexed : state.indices = []) (cols : List Nat) :
    Consistent format (state.addPrimaryIndex cols
        (checkIfIndexIsUnique state.uniqueKeys cols)) ∧
      (state.addPrimaryIndex cols (checkIfIndexIsUnique state.uniqueKeys cols)).rows =
        state.rows ∧
      (state.addPrimaryIndex cols (checkIfIndexIsUnique state.uniqueKeys cols)).indices =
        [⟨0, ⟨.hashMap, cols⟩, checkIfIndexIsUnique state.uniqueKeys cols, true⟩] := by
  have empty := inv.unindexed unindexed
  have isEmpty : state.db.inner.indices.isEmpty = true := by
    rw [List.isEmpty_iff]
    exact unindexed
  have added : state.addPrimaryIndex cols (checkIfIndexIsUnique state.uniqueKeys cols) =
      { state with db.inner.indices :=
          [⟨0, ⟨.hashMap, cols⟩, checkIfIndexIsUnique state.uniqueKeys cols, true⟩] } := by
    rw [PersistentState.addPrimaryIndex, if_pos isEmpty]
  rw [added]
  refine ⟨?_, rfl, rfl⟩
  exact
    { families := rfl
      flags := by
        intro index mem
        obtain rfl := mem_singleton.mp mem
        rfl
      primary := by
        intro index mem
        obtain rfl := Option.some.inj mem
        rfl
      secondary := fun index mem => absurd mem not_mem_nil
      unindexed := fun impossible => absurd impossible (by simp)
      keyed := by
        intro index _ entry mem
        rw [show state.database.rows.entries = [] from empty] at mem
        exact absurd mem not_mem_nil
      pointed := fun index mem => absurd mem not_mem_nil
      respects := inv.respects }

/-- Every new index leaves the stored rows as they are. -/
theorem Consistent.addKey {index : Index}
    (legible : ∀ next, state.addKey format index none = .ok next →
      Legible format next.indices fun shown => shown ∈ state.rows) :
    ∃ next, state.addKey format index none = .ok next ∧ Consistent format next ∧
      next.rows = state.rows := by
  simp only [PersistentState.addKey, Option.isSome_none, Bool.false_eq_true, if_false] at legible ⊢
  split_ifs at legible ⊢ with existing unindexed hashed
  · exact ⟨state, rfl, inv, rfl⟩
  · obtain ⟨kept, rows, _⟩ := inv.addPrimaryIndex (isEmpty_iff.mp unindexed) index.columns
    exact ⟨_, rfl, kept, rows⟩
  · obtain ⟨kept, rows, indexed⟩ :=
      inv.addPrimaryIndex (isEmpty_iff.mp unindexed) index.columns
    have readable := legible _ rfl
    rw [← rows] at readable
    have uniqueKeys : (state.addPrimaryIndex index.columns
        (checkIfIndexIsUnique state.uniqueKeys index.columns)).uniqueKeys = state.uniqueKeys := by
      rw [PersistentState.addPrimaryIndex, if_pos unindexed]
    obtain ⟨keptTwice, rowsTwice⟩ := kept.addSecondaryIndex indexed (by
      rw [uniqueKeys]
      exact readable)
    rw [uniqueKeys] at keptTwice rowsTwice
    exact ⟨_, rfl, keptTwice, rowsTwice.trans rows⟩
  · cases indexed : state.indices with
    | nil => exact absurd (isEmpty_iff.mpr indexed) unindexed
    | cons primary secondary =>
      obtain ⟨kept, rows⟩ := inv.addSecondaryIndex indexed (legible _ rfl)
      exact ⟨_, rfl, kept, rows⟩

omit inv

variable (format) in
/-- A new state is consistent. -/
theorem consistent_new (uniqueKeys : List (List Nat)) :
    Consistent format (PersistentState.new uniqueKeys : PersistentState V) ∧
      (PersistentState.new uniqueKeys : PersistentState V).rows = 0 := by
  have bare : Consistent format ({ uniqueKeys, epoch := 1 } : PersistentState V) :=
    { families := rfl
      flags := fun index mem => absurd mem not_mem_nil
      primary := fun index mem => absurd mem (Option.not_mem_none index)
      secondary := fun index mem => absurd mem not_mem_nil
      unindexed := fun _ => rfl
      keyed := fun index mem => absurd mem (Option.not_mem_none index)
      pointed := fun index mem => absurd mem not_mem_nil
      respects := fun unique _ key _ => Nat.zero_le 1 }
  cases uniqueKeys with
  | nil => exact ⟨bare, rfl⟩
  | cons first others =>
    have isUnique : checkIfIndexIsUnique (first :: others) first = true := by
      simp [checkIfIndexIsUnique]
    obtain ⟨kept, rows, _⟩ := bare.addPrimaryIndex rfl first
    rw [isUnique] at kept rows
    exact ⟨kept, rows⟩

theorem Consistent.of_same {other : PersistentState V} (inv : Consistent format state)
    (indices : other.indices = state.indices) (database : other.database = state.database)
    (uniqueKeys : other.uniqueKeys = state.uniqueKeys) (epoch : other.epoch = state.epoch)
    (seq : other.seq = state.seq) : Consistent format other := by
  have rows : other.rows = state.rows := by
    exact congrArg (fun db : Database V => db.rows.values) database
  exact
    { families := indices.symm ▸ inv.families
      flags := by
        rw [indices, uniqueKeys]
        exact inv.flags
      primary := indices.symm ▸ inv.primary
      secondary := indices.symm ▸ inv.secondary
      unindexed := by
        rw [indices, database]
        exact inv.unindexed
      keyed := by
        rw [indices, database, epoch, seq]
        exact inv.keyed
      pointed := by
        rw [indices, database]
        exact inv.pointed
      respects := by
        rw [uniqueKeys, rows]
        exact inv.respects }

/-- A restart finds the rows and indices that were written. -/
theorem Consistent.reopen (inv : Consistent format state) :
    Consistent format state.reopen ∧ state.reopen.rows = state.rows ∧
      state.reopen.indices = state.indices := by
  have indices : state.reopen.indices = state.indices := by
    have same : ∀ index ∈ state.indices, ({ index with
        isUnique := checkIfIndexIsUnique state.uniqueKeys index.index.columns } :
          PersistentIndex) = index := by
      intro index mem
      rw [← inv.flags index mem]
    exact map_congr_left same |>.trans (map_id _)
  refine ⟨?_, rfl, indices⟩
  exact
    { families := indices.symm ▸ inv.families
      flags := indices.symm ▸ inv.flags
      primary := indices.symm ▸ inv.primary
      secondary := indices.symm ▸ inv.secondary
      unindexed := indices.symm ▸ inv.unindexed
      keyed := by
        intro index isPrimary entry mem
        rw [indices] at isPrimary
        obtain ⟨epoch, seq, key, earlier⟩ := inv.keyed index isPrimary entry mem
        refine ⟨epoch, seq, key, .inl ?_⟩
        change epoch < state.epoch + 1
        omega
      pointed := indices.symm ▸ inv.pointed
      respects := inv.respects }

end

end ReadySet.DataflowState.Persistent
