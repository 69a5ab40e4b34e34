import ReadySet.DataflowState.Persistent.Batch

/-!
Owns point lookups in a consistent database. Every index shows the stored rows
(`View`), under keys that begin with the written form of the row's key; a lookup
therefore returns the rows whose keys are written like the one asked for. Where
that is the same as being equal to it, lookups are exact.
-/

namespace ReadySet.DataflowState.Persistent

open Data Library Dataflow DataflowState BTreeMap List

universe u v

variable {V : Type u}

/-! ## Iterators -/

theorem seek_of_mem {β : Type v} {entries : List (Bytes × β)}
    (sorted : SortedMap.Sorted Bytes.cmp entries) {key : Bytes} {value : β}
    (mem : (key, value) ∈ entries) : ∃ rest, seek entries key = (key, value) :: rest := by
  induction entries with
  | nil => exact absurd mem not_mem_nil
  | cons head tail ih =>
    obtain ⟨first, restSorted⟩ := pairwise_cons.mp sorted
    unfold seek
    rcases mem_cons.mp mem with rfl | later
    · have self : Bytes.cmp key key = .eq := Std.ReflCmp.compare_self
      rw [dropWhile_cons_of_neg (by simp [self])]
      exact ⟨tail, rfl⟩
    · have below : Bytes.cmp head.1 key = .lt := first (key, value) later
      rw [dropWhile_cons_of_pos (by simp [below])]
      exact ih restSorted later

variable {β γ : Type v} (f : β → γ)

section

variable (entries : List (Bytes × β))

theorem seek_map (target : Bytes) :
    seek (entries.map fun entry => (entry.1, f entry.2)) target =
      (seek entries target).map fun entry => (entry.1, f entry.2) := by
  unfold seek
  rw [dropWhile_map]
  rfl

theorem withPrefix_map (keyPrefix : Bytes) :
    withPrefix (entries.map fun entry => (entry.1, f entry.2)) keyPrefix =
      (withPrefix entries keyPrefix).map fun entry => (entry.1, f entry.2) := by
  unfold withPrefix
  rw [seek_map, takeWhile_map]
  rfl

theorem samePrefix_map (start : Bytes) :
    samePrefix (entries.map fun entry => (entry.1, f entry.2)) start =
      (samePrefix entries start).map fun entry => (entry.1, f entry.2) := by
  unfold samePrefix
  rw [seek_map, takeWhile_map]
  rfl

end

/-! ## What an index shows -/

variable {format : ValueFormat V} {state : PersistentState V} {index : PersistentIndex}
  {row : Row V}

/-- The rows of the table in the order of an index, under their keys. -/
structure View (format : ValueFormat V) (state : PersistentState V) (index : PersistentIndex)
    (view : Family (Row V)) : Prop where
  rows : view.values = state.rows
  entries : index.entries state.database = view.entries.map fun entry => (entry.1, .ok entry.2)
  get : ∀ key, index.get state.database key = (view.get? key).map .ok
  keys : ∀ entry ∈ view.entries, ∃ extra,
    entry.1 = serializeKey format (index.buildKey entry.2) extra ∧
      (extra = [] ↔ index.holdsOne (index.buildKey entry.2) = true)

section

variable [DecidableEq V] {primary : PersistentIndex} {secondary : List PersistentIndex}

section

variable (inv : Consistent format state) (indexed : state.indices = primary :: secondary)

include inv indexed

theorem view_primary : View format state primary state.database.rows := by
  have isPrimary : primary.isPrimary = true := inv.primary primary (by rw [indexed]; rfl)
  refine ⟨rfl, ?_, fun key => ?_, ?_⟩
  · rw [PersistentIndex.entries, if_pos isPrimary]
  · rw [PersistentIndex.get, if_pos isPrimary]
  · rintro ⟨pk, row⟩ stored
    obtain ⟨epoch, seq, rfl, _⟩ := inv.keyed_primary indexed stored
    refine ⟨_, primaryKey_eq epoch seq, ?_⟩
    split_ifs with one
    · exact iff_of_true rfl one
    · refine iff_of_false ?_ one
      exact append_ne_nil_of_left_ne_nil (writeVarint_ne_nil epoch) _

theorem Consistent.pointers_perm (mem : index ∈ secondary) :
    (state.database.families index.columnFamily).entries.Perm
      (state.database.rows.entries.map fun entry =>
        (index.entryKey format entry.2 entry.1, entry.1)) := by
  have points := inv.pointed_secondary indexed mem
  refine (perm_ext_iff_of_nodup (entries_nodup _) ?_).mpr fun entry => ?_
  · refine Nodup.map_on ?_ (entries_nodup _)
    rintro ⟨pk, row⟩ stored ⟨otherPk, other⟩ otherStored same
    obtain rfl : pk = otherPk := (Prod.mk.inj same).2
    rw [value_unique stored otherStored]
  · rw [show entry = (entry.1, entry.2) from rfl, points, mem_map]
    constructor
    · rintro ⟨row, stored, key⟩
      exact ⟨(entry.2, row), stored, by rw [key]⟩
    · rintro ⟨⟨pk, row⟩, stored, same⟩
      obtain ⟨key, rfl⟩ := Prod.mk.inj same
      exact ⟨row, stored, key.symm⟩

end

/-- The row under a primary key. -/
def PersistentState.rowAt (state : PersistentState V) (pk : Bytes) : Row V :=
  (state.database.rows.get? pk).getD []

omit [DecidableEq V] in
theorem rowAt_eq {pk : Bytes} (stored : (pk, row) ∈ state.database.rows.entries) :
    state.rowAt pk = row := by
  rw [PersistentState.rowAt, get?_eq_some.mpr stored]
  rfl

variable (inv : Consistent format state)
include inv

section

variable (indexed : state.indices = primary :: secondary) (mem : index ∈ secondary)

include indexed mem

theorem stored_of_mem {entry : Bytes × Bytes}
    (inFamily : entry ∈ (state.database.families index.columnFamily).entries) :
    (entry.2, state.rowAt entry.2) ∈ state.database.rows.entries ∧
      entry.1 = index.entryKey format (state.rowAt entry.2) entry.2 := by
  obtain ⟨row, stored, key⟩ := (inv.pointed_secondary indexed mem entry.1 entry.2).mp inFamily
  rw [rowAt_eq stored]
  exact ⟨stored, key⟩

theorem rows_pointed :
    ((state.database.families index.columnFamily).entries.map fun entry => state.rowAt entry.2).Perm
      (state.database.rows.entries.map Prod.snd) := by
  have shown := (inv.pointers_perm indexed mem).map fun entry => state.rowAt entry.2
  rw [map_map] at shown
  refine shown.trans (Perm.of_eq ?_)
  exact map_congr_left fun entry stored => rowAt_eq stored

/-- A secondary index shows the stored rows through their primary keys. -/
theorem view_secondary : ∃ view, View format state index view := by
  have notPrimary : ¬ index.isPrimary = true := by
    rw [inv.secondary index (by rw [indexed]; exact mem)]
    exact Bool.false_ne_true
  let family := state.database.families index.columnFamily
  have sorted : SortedMap.Sorted Bytes.cmp
      (family.entries.map fun entry => (entry.1, state.rowAt entry.2)) :=
    pairwise_map.mpr family.sorted
  let view : Family (Row V) := ⟨_, sorted⟩
  refine ⟨view, ?_, ?_, ?_, ?_⟩
  · refine Multiset.coe_eq_coe.mpr ?_
    rw [map_map]
    exact rows_pointed inv indexed mem
  · rw [PersistentIndex.entries, if_neg notPrimary, map_map]
    refine map_congr_left fun entry inFamily => ?_
    obtain ⟨rest, sought⟩ := seek_of_mem state.database.rows.sorted
      (stored_of_mem inv indexed mem inFamily).1
    rw [Database.seekRow, sought]
    rfl
  · intro key
    rw [PersistentIndex.get, if_neg notPrimary]
    cases found : (state.database.families index.columnFamily).get? key with
    | none =>
      have missing : ∀ row, (key, row) ∉ view.entries := by
        intro row shown
        obtain ⟨entry, inFamily, same⟩ := mem_map.mp shown
        rw [← (Prod.mk.inj same).1, get?_eq_some.mpr inFamily] at found
        contradiction
      rw [get?_eq_none_of_forall missing]
      rfl
    | some pk =>
      have inFamily := get?_eq_some.mp found
      have shown : (key, state.rowAt pk) ∈ view.entries := mem_map.mpr ⟨(key, pk), inFamily, rfl⟩
      rw [Option.map_some, Database.getRow,
        get?_eq_some.mpr (stored_of_mem inv indexed mem inFamily).1,
        get?_eq_some.mpr shown]
      rfl
  · intro shown inView
    obtain ⟨entry, inFamily, rfl⟩ := mem_map.mp inView
    obtain ⟨stored, key⟩ := stored_of_mem inv indexed mem inFamily
    obtain ⟨epoch, seq, pk, _⟩ := inv.keyed_primary indexed stored
    refine ⟨_, key.trans (entryKey_eq entry.2), ?_⟩
    split_ifs with one
    · exact iff_of_true rfl one
    · refine iff_of_false ?_ one
      rw [pk]
      exact primaryKey_ne_nil epoch seq

end

theorem exists_view (listed : index ∈ state.indices) : ∃ view, View format state index view := by
  cases indexed : state.indices with
  | nil =>
    rw [indexed] at listed
    exact absurd listed not_mem_nil
  | cons primary secondary =>
    rw [indexed] at listed
    rcases mem_cons.mp listed with rfl | later
    · exact ⟨_, view_primary inv indexed⟩
    · exact view_secondary inv indexed later

omit inv

end

/-! ## Lookups -/

theorem mapM_rows (entries : List (Bytes × Row V)) :
    (entries.map fun entry => (entry.1, (.ok entry.2 : ReadySetResult (Row V)))).mapM Prod.snd =
      .ok (entries.map Prod.snd) := by
  induction entries with
  | nil => rfl
  | cons head tail ih =>
    rw [map_cons, mapM_cons, ih]
    rfl

section

variable (format : ValueFormat V) (index : PersistentIndex) (key : Key V)

/-- Whether a row has the key, as values are compared. -/
def PersistentIndex.holdsKey (row : Row V) : Bool := (index.buildKey row).isEqv key format.same

/-- Whether the key of a row is written like the one asked for. -/
def PersistentIndex.writtenLike (row : Row V) : Bool :=
  decide (format.serialize (index.buildKey row) = format.serialize key)

/-- The rows that `lookup` finds. -/
def PersistentIndex.reads (row : Row V) : Bool :=
  index.writtenLike format key row && (!index.holdsOne key || index.holdsOne (index.buildKey row))

theorem PersistentIndex.reads_of_many (many : index.holdsOne key = false) :
    index.reads format key = index.writtenLike format key := by
  funext row
  simp [PersistentIndex.reads, many]

end

namespace View

variable {view : Family (Row V)} {key : Key V}
  (shows : View format state index view) {entry : Bytes × Row V}
include shows

theorem starts_iff (key : Key V) (mem : entry ∈ view.entries) :
    (serializePrefix format key).isPrefixOf entry.1 = true ↔
      format.serialize (index.buildKey entry.2) = format.serialize key := by
  obtain ⟨extra, written, _⟩ := shows.keys entry mem
  rw [List.isPrefixOf_iff_prefix, written]
  exact serializePrefix_prefix_iff

theorem samePrefix_eq (key : Key V) :
    samePrefix view.entries (serializePrefix format key) =
      withPrefix view.entries (serializePrefix format key) := by
  refine takeWhile_congr_of_mem fun entry sought => ?_
  have mem : entry ∈ view.entries := (dropWhile_sublist _).subset sought
  obtain ⟨extra, written, _⟩ := shows.keys entry mem
  have whole : prefixTransform (serializePrefix format key) = serializePrefix format key :=
    prefixTransform_serializeKey key []
  rw [Bool.eq_iff_iff, decide_eq_true_iff, shows.starts_iff key mem, written,
    prefixTransform_serializeKey, whole]
  constructor
  · intro same
    exact (serializeKey_inj same).1
  · intro same
    rw [serializePrefix, serializePrefix, serializeKey, serializeKey, same]

theorem withPrefix_eq (key : Key V) :
    withPrefix view.entries (serializePrefix format key) =
      view.entries.filter fun entry => index.writtenLike format key entry.2 := by
  rw [withPrefix_eq_filter view.sorted]
  refine filter_congr fun entry mem => ?_
  rw [Bool.eq_iff_iff, shows.starts_iff key mem, PersistentIndex.writtenLike, decide_eq_true_iff]

section

variable (one : index.holdsOne key = true)

include one

/-- Where an index holds one row for the key, `lookup` finds what stands under
the key alone. -/
theorem key_eq_iff (mem : entry ∈ view.entries) :
    entry.1 = serializePrefix format key ↔ index.reads format key entry.2 = true := by
  obtain ⟨extra, written, alone⟩ := shows.keys entry mem
  simp only [PersistentIndex.reads, PersistentIndex.writtenLike, one, Bool.not_true, Bool.false_or,
    Bool.and_eq_true, decide_eq_true_iff]
  rw [← alone, written, serializePrefix]
  constructor
  · intro same
    exact serializeKey_inj same
  · rintro ⟨same, rfl⟩
    rw [serializeKey, serializeKey, same]

theorem filter_reads_eq :
    (view.entries.filter fun entry => index.reads format key entry.2) =
      ((view.get? (serializePrefix format key)).map (serializePrefix format key, ·)).toList := by
  cases found : view.get? (serializePrefix format key) with
  | none =>
    rw [Option.map_none, Option.toList_none, filter_eq_nil_iff]
    intro entry mem reads
    rw [← (shows.key_eq_iff one mem).mpr reads, get?_eq_some.mpr mem] at found
    contradiction
  | some row =>
    have mem := get?_eq_some.mp found
    refine perm_singleton.mp ?_
    refine (perm_ext_iff_of_nodup ((entries_nodup view).filter _)
      (nodup_singleton _)).mpr fun entry => ?_
    rw [mem_filter, mem_singleton]
    constructor
    · rintro ⟨shown, reads⟩
      have placed := (shows.key_eq_iff one shown).mpr reads
      rw [← placed] at mem ⊢
      rw [value_unique mem shown]
    · rintro rfl
      exact ⟨mem, (shows.key_eq_iff one mem).mp rfl⟩

/-- The row that stands under the key alone comes first among those written like
it. -/
theorem take_one_eq (found : view.get? (serializePrefix format key) = some row) :
    (view.entries.filter fun entry => index.writtenLike format key entry.2).take 1 =
      [(serializePrefix format key, row)] := by
  have sorted := view.sorted.filter fun entry => index.writtenLike format key entry.2
  have inside : ∀ entry ∈ view.entries.filter fun entry => index.writtenLike format key entry.2,
      (serializePrefix format key).isPrefixOf entry.1 = true := by
    intro entry chosen
    obtain ⟨mem, written⟩ := mem_filter.mp chosen
    exact (shows.starts_iff key mem).mpr (of_decide_eq_true written)
  have listed : (serializePrefix format key, row) ∈
      view.entries.filter fun entry => index.writtenLike format key entry.2 := by
    have mem := get?_eq_some.mp found
    have reads := (shows.key_eq_iff one mem).mp rfl
    rw [PersistentIndex.reads, Bool.and_eq_true] at reads
    exact mem_filter.mpr ⟨mem, reads.1⟩
  generalize (view.entries.filter fun entry => index.writtenLike format key entry.2) = written
    at sorted inside listed
  cases written with
  | nil => exact absurd listed not_mem_nil
  | cons first rest =>
    rcases mem_cons.mp listed with rfl | later
    · rfl
    · -- what starts with the key is not below the key alone
      have below : Bytes.cmp first.1 (serializePrefix format key) = .lt :=
        (pairwise_cons.mp sorted).1 _ later
      have starts := List.isPrefixOf_iff_prefix.mp (inside first mem_cons_self)
      have above := isLT_eq_false_of_starts starts
      rw [below] at above
      contradiction

end

theorem lookupRows_eq (key : Key V) :
    index.lookupRows format state.database key =
      .ok ((view.entries.filter fun entry => index.reads format key entry.2).map Prod.snd) := by
  simp only [PersistentIndex.lookupRows]
  cases one : index.holdsOne key with
  | true =>
    rw [shows.get, shows.filter_reads_eq one]
    cases view.get? (serializePrefix format key) <;> rfl
  | false =>
    rw [if_neg Bool.false_ne_true, shows.entries, samePrefix_map, shows.samePrefix_eq,
      shows.withPrefix_eq, mapM_rows, index.reads_of_many format key one]

theorem lookupOne_eq (key : Key V) :
    index.lookupOne format state.database key =
      .ok ((if index.holdsOne key then
          (view.entries.filter fun entry => index.writtenLike format key entry.2).take 1
        else view.entries.filter fun entry => index.reads format key entry.2).map Prod.snd) := by
  simp only [PersistentIndex.lookupOne]
  rw [shows.entries, withPrefix_map, shows.withPrefix_eq]
  cases one : index.holdsOne key with
  | true =>
    rw [← map_take]
    exact mapM_rows _
  | false =>
    rw [index.reads_of_many format key one]
    exact mapM_rows _

omit shows

end View

/-! ## Exact lookups -/

def PersistentState.rowsWithKey (format : ValueFormat V) (state : PersistentState V)
    (columns : List Nat) (key : Key V) : Multiset (Row V) :=
  state.rows.filter fun row => (row.clonedIndices columns).isEqv key format.same = true

/-- Lookups of a key find the rows that have it. -/
def PersistentIndex.Exact (format : ValueFormat V) (state : PersistentState V)
    (index : PersistentIndex) (key : Key V) : Prop :=
  ∃ found foundOne, index.lookupRows format state.database key = .ok found ∧
    index.lookupOne format state.database key = .ok foundOne ∧
    (found : Multiset (Row V)) = state.rowsWithKey format index.index.columns key ∧
    (foundOne : Multiset (Row V)) = state.rowsWithKey format index.index.columns key

/-- The stored rows that have the key are those that are read for it; where the
index holds one row for the key, no row is written like a key that none has. -/
structure PersistentIndex.Discerns (format : ValueFormat V) (state : PersistentState V)
    (index : PersistentIndex) (key : Key V) : Prop where
  reads_iff : ∀ row ∈ state.rows,
    index.reads format key row = true ↔ index.holdsKey format key row = true
  held : index.holdsOne key = true →
    (∃ row ∈ state.rows, index.writtenLike format key row = true) →
      ∃ row ∈ state.rows, index.holdsKey format key row = true

theorem filter_eq_filter_iff {α : Type u} {items : Multiset α} {left right : α → Prop}
    [DecidablePred left] [DecidablePred right] :
    items.filter left = items.filter right ↔ ∀ item ∈ items, (left item ↔ right item) := by
  constructor
  · intro same item mem
    have iff : item ∈ items.filter left ↔ item ∈ items.filter right := by rw [same]
    rw [Multiset.mem_filter, Multiset.mem_filter, and_iff_right mem, and_iff_right mem] at iff
    exact iff
  · exact fun agree => Multiset.filter_congr agree

section

variable {view : Family (Row V)}

section

variable (shows : View format state index view)

include shows

theorem View.stored_iff : row ∈ state.rows ↔ ∃ entry ∈ view.entries, entry.2 = row := by
  rw [← shows.rows, values, Multiset.mem_coe, mem_map]

theorem View.read_eq_iff (key : Key V) :
    (((view.entries.filter fun entry => index.reads format key entry.2).map Prod.snd :
        List (Row V)) : Rows V) = state.rowsWithKey format index.index.columns key ↔
      ∀ row ∈ state.rows,
        index.reads format key row = true ↔ index.holdsKey format key row = true := by
  have chosen : (((view.entries.filter fun entry => index.reads format key entry.2).map Prod.snd :
      List (Row V)) : Rows V) = state.rows.filter fun row => index.reads format key row = true := by
    rw [← shows.rows, values, Multiset.filter_coe, filter_map]
    simp [Function.comp_def]
  rw [chosen]
  exact filter_eq_filter_iff

/-- With one row per key, `lookup_multi` agrees with `lookup` unless only rows
written like the key are there. -/
theorem View.take_one_eq_read {key : Key V} (one : index.holdsOne key = true)
    (held : (∃ row ∈ state.rows, index.writtenLike format key row = true) → ∃ row ∈ state.rows,
      index.reads format key row = true) :
    (view.entries.filter fun entry => index.writtenLike format key entry.2).take 1 =
      view.entries.filter fun entry => index.reads format key entry.2 := by
  rw [shows.filter_reads_eq one]
  cases found : view.get? (serializePrefix format key) with
  | some row => exact shows.take_one_eq one found
  | none =>
    have nothing : (view.entries.filter fun entry => index.writtenLike format key entry.2) = [] := by
      rw [filter_eq_nil_iff]
      intro entry mem written
      obtain ⟨row, stored, reads⟩ := held ⟨entry.2, shows.stored_iff.mpr ⟨entry, mem, rfl⟩, written⟩
      obtain ⟨read, readMember, rfl⟩ := shows.stored_iff.mp stored
      rw [← (shows.key_eq_iff one readMember).mpr reads, get?_eq_some.mpr readMember] at found
      contradiction
    rw [nothing]
    rfl

end

/-- Lookups of a key are exact just if its bytes discern the rows that have it. -/
theorem Consistent.exact_iff [DecidableEq V] (inv : Consistent format state)
    (listed : index ∈ state.indices) (key : Key V) :
    index.Exact format state key ↔ index.Discerns format state key := by
  obtain ⟨view, shows⟩ := exists_view inv listed
  constructor
  · rintro ⟨found, foundOne, read, readOne, exact_, exactOne⟩
    rw [shows.lookupRows_eq] at read
    rw [shows.lookupOne_eq] at readOne
    obtain rfl := Except.ok.inj read
    obtain rfl := Except.ok.inj readOne
    refine ⟨(shows.read_eq_iff key).mp exact_, ?_⟩
    rintro one ⟨row, stored, written⟩
    obtain ⟨entry, mem, rfl⟩ := shows.stored_iff.mp stored
    have chosen : entry ∈ view.entries.filter fun entry => index.writtenLike format key entry.2 :=
      mem_filter.mpr ⟨mem, written⟩
    obtain ⟨first, rest, filtered⟩ := exists_cons_of_ne_nil (ne_nil_of_mem chosen)
    rw [if_pos one, filtered] at exactOne
    have has : first.2 ∈ state.rowsWithKey format index.index.columns key := by
      rw [← exactOne]
      exact mem_singleton_self first.2
    exact ⟨first.2, (Multiset.mem_filter.mp has).1, (Multiset.mem_filter.mp has).2⟩
  · rintro ⟨reads_iff, held⟩
    refine ⟨_, _, shows.lookupRows_eq key, shows.lookupOne_eq key, ?_, ?_⟩
    · exact (shows.read_eq_iff key).mpr reads_iff
    · split_ifs with one
      · rw [shows.take_one_eq_read one fun written => ?_]
        · exact (shows.read_eq_iff key).mpr reads_iff
        · obtain ⟨row, stored, holds⟩ := held one written
          exact ⟨row, stored, (reads_iff row stored).mpr holds⟩
      · exact (shows.read_eq_iff key).mpr reads_iff

end

end ReadySet.DataflowState.Persistent
