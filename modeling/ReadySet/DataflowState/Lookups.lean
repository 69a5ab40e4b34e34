import ReadySet.DataflowState.MemoryState

/-!
Owns what a lookup in a memory state returns when its indices are complete for
a table: a miss, or the table's rows for the key, also when the answer comes
from an index on the same columns in another order or on some of them only.

A key for distinct columns is a function on the columns (`keyAt`); the keys
that the fallbacks build for other indices are the values of that function.
-/

namespace ReadySet.DataflowState

open Data Library Dataflow List

universe u

namespace MemoryState

section

variable {V : Type u} {cols target : List Nat} {key : Key V}

/-- The value that a key asks for in a column. -/
def keyAt (columns : List Nat) (key : Key V) (col : Nat) : DfValue V :=
  key.getD (columns.idxOf col) .none

theorem map_keyAt (nodup : cols.Nodup) (length : key.length = cols.length) :
    cols.map (keyAt cols key) = key := by
  apply ext_getElem
  · rw [length_map, length]
  · intro index inColumns inKey
    rw [length_map] at inColumns
    rw [getElem_map, keyAt, nodup.idxOf_getElem index inColumns, getD_eq_getElem _ _ inKey]

theorem clonedIndices_eq_map_iff {row : Row V} {value : Nat → DfValue V} :
    row.clonedIndices cols = cols.map value ↔ ∀ col ∈ cols, row.at col = value col := by
  rw [Row.clonedIndices, map_inj_left]

theorem colPosition_isSome {col : Nat} : (colPosition cols col).isSome = true ↔ col ∈ cols := by
  rw [colPosition, Option.isSome_map, find?_isSome]
  constructor
  · rintro ⟨⟨other, idx⟩, mem, same⟩
    have stored := mem_zipIdx_iff_getElem?.mp (mem_reverse.mp mem)
    rw [← of_decide_eq_true same]
    exact mem_of_getElem? stored
  · intro mem
    obtain ⟨idx, stored⟩ := getElem?_of_mem mem
    exact ⟨(col, idx), mem_reverse.mpr (mem_zipIdx_iff_getElem?.mpr stored), decide_eq_true rfl⟩

theorem getElem?_of_colPosition {col idx : Nat}
    (found : colPosition cols col = some idx) : cols[idx]? = some col := by
  obtain ⟨entry, first, rfl⟩ := Option.map_eq_some_iff.mp found
  have same : entry.1 = col := by simpa using find?_some first
  rw [← same]
  exact mem_zipIdx_iff_getElem?.mp (mem_reverse.mp (mem_of_find?_eq_some first))

/-- One round of the loop that fills the shuffled key. -/
def place (target : List Nat) (value : Nat → DfValue V) (shuffled : Key V) (col : Nat) : Key V :=
  match colPosition target col with
  | some position => shuffled.set position (value col)
  | none => shuffled

variable (value : Nat → DfValue V)

theorem length_foldl_place (cols : List Nat) (shuffled : Key V) :
    (cols.foldl (place target value) shuffled).length = shuffled.length := by
  induction cols generalizing shuffled with
  | nil => rfl
  | cons head rest ih =>
    rw [foldl_cons, ih, place]
    cases colPosition target head <;> simp

theorem getElem?_foldl_place (nodup : target.Nodup) (value : Nat → DfValue V) (cols : List Nat)
    (shuffled : Key V) (length : shuffled.length = target.length) (idx col : Nat)
    (here : target[idx]? = some col) :
    (cols.foldl (place target value) shuffled)[idx]? =
      if col ∈ cols then some (value col) else shuffled[idx]? := by
  induction cols generalizing shuffled with
  | nil => simp
  | cons head rest ih =>
    rw [foldl_cons, place]
    cases found : colPosition target head with
    | none =>
      have absent : head ≠ col := by
        rintro rfl
        have isSome := colPosition_isSome.mpr (mem_of_getElem? here)
        rw [found] at isSome
        contradiction
      rw [ih shuffled length]
      simp [absent.symm]
    | some filled =>
      have filledHere := getElem?_of_colPosition found
      rw [ih _ (by rw [length_set, length])]
      by_cases later : col ∈ rest
      · simp [later]
      · rw [if_neg later, List.getElem?_set]
        have bound : filled < target.length := (List.getElem?_eq_some_iff.mp filledHere).1
        by_cases same : head = col
        · have samePosition : filled = idx := by
            rw [← getElem?_inj bound nodup, filledHere, here, same]
          rw [if_pos samePosition, if_pos (length.symm ▸ bound)]
          simp [same]
        · have otherPosition : filled ≠ idx := by
            rintro rfl
            rw [filledHere] at here
            exact same (Option.some.inj here)
          rw [if_neg otherPosition]
          simp [later, Ne.symm same]

/-- On a key that is a function of the columns, the entries of the columns are
the columns with their values. -/
theorem getElem?_map_of_mem_zipIdx {value : Nat → DfValue V} {entry : Nat × Nat}
    (mem : entry ∈ cols.zipIdx) : (cols.map value)[entry.2]? = some (value entry.1) := by
  rw [getElem?_map, mem_zipIdx_iff_getElem?.mp mem]
  rfl

/-- A key is permuted into the order of the columns of another index. -/
theorem shuffledKey_map (nodup : target.Nodup) (length : target.length = cols.length)
    (sub : ∀ col ∈ target, col ∈ cols) {value : Nat → DfValue V} :
    shuffledKey target cols (cols.map value) = target.map value := by
  have overColumns : shuffledKey target cols (cols.map value) =
      cols.foldl (place target value) (replicate target.length .none) := by
    calc shuffledKey target cols (cols.map value)
      _ = cols.zipIdx.foldl (fun shuffled entry => place target value shuffled entry.1)
            (replicate target.length .none) := by
          rw [shuffledKey, length_map, length]
          apply foldl_ext
          intro shuffled entry mem
          rw [getElem?_map_of_mem_zipIdx mem, place]
          cases colPosition target entry.1 <;> rfl
      _ = (cols.zipIdx.map Prod.fst).foldl (place target value)
            (replicate target.length .none) := by
          rw [foldl_map]
      _ = cols.foldl (place target value) (replicate target.length .none) := by
          rw [zipIdx_map_fst]
  apply ext_getElem?
  intro idx
  rw [overColumns, getElem?_map]
  cases here : target[idx]? with
  | some col =>
    rw [getElem?_foldl_place nodup value cols _ length_replicate idx col here,
      if_pos (sub col (mem_of_getElem? here))]
    rfl
  | none =>
    have beyond : target.length ≤ idx := getElem?_eq_none_iff.mp here
    apply getElem?_eq_none
    rwa [length_foldl_place, length_replicate]

/-! The columns of a narrower index, with their values in index order. -/

/-- A column of the index with its position and its value. -/
def positioned (target : List Nat) (value : Nat → DfValue V) (col : Nat) : Nat × DfValue V :=
  (target.idxOf col, value col)

theorem filterMap_idxOf? (cols : List Nat) :
    (cols.filterMap fun col => (target.idxOf? col).map fun idx => (idx, value col)) =
      (cols.filter fun col => col ∈ target).map (positioned target value) := by
  induction cols with
  | nil => rfl
  | cons head rest ih =>
    cases found : target.idxOf? head with
    | none =>
      have absent : head ∉ target := idxOf?_eq_none_iff.mp found
      simp [absent, ih]
    | some idx =>
      have mem : head ∈ target := by
        by_contra absent
        rw [idxOf?_eq_none_iff.mpr absent] at found
        contradiction
      have positionIs : target.idxOf head = idx := by
        rw [idxOf_eq_getD_idxOf?, found]
        rfl
      simp [found, mem, ih, positioned, positionIs]

theorem narrowPositions_map :
    narrowPositions target cols (cols.map value) =
      (cols.filter fun col => col ∈ target).map (positioned target value) := by
  calc narrowPositions target cols (cols.map value)
    _ = cols.zipIdx.filterMap fun entry =>
          (target.idxOf? entry.1).map fun idx => (idx, value entry.1) := by
        apply filterMap_congr
        intro entry mem
        rw [getElem?_map_of_mem_zipIdx mem]
        cases target.idxOf? entry.1 <;> rfl
    _ = (cols.zipIdx.map Prod.fst).filterMap fun col =>
          (target.idxOf? col).map fun idx => (idx, value col) := by
        rw [filterMap_map]
        rfl
    _ = (cols.filter fun col => col ∈ target).map (positioned target value) := by
        rw [zipIdx_map_fst, filterMap_idxOf?]

/-- If distinct columns meet an index's columns as often as it has columns, the
index's columns are those they meet. -/
theorem perm_of_length (nodup : cols.Nodup)
    (length : (cols.filter fun col => col ∈ target).length = target.length) :
    (cols.filter fun col => col ∈ target).Perm target := by
  apply List.Subperm.perm_of_length_le
  · apply (nodup.filter _).subperm
    intro col mem
    exact of_decide_eq_true (mem_filter.mp mem).2
  · exact length.ge

theorem stableSort_positioned (nodup : target.Nodup)
    (perm : cols.Perm target) (value : Nat → DfValue V) :
    stableSort compare Prod.fst (cols.map (positioned target value)) =
      target.map (positioned target value) := by
  have sorted : (stableSort compare Prod.fst (cols.map (positioned target value))).Pairwise
      fun left right => left.1 ≤ right.1 := by
    refine (stableSort_pairwise compare Prod.fst _).imp ?_
    intro left right below
    exact Std.isLE_compare.mp below
  have mono : (target.map (positioned target value)).Pairwise
      fun left right => left.1 ≤ right.1 := by
    rw [pairwise_map, pairwise_iff_getElem]
    intro first second inFirst inSecond before
    change target.idxOf target[first] ≤ target.idxOf target[second]
    rw [nodup.idxOf_getElem first inFirst, nodup.idxOf_getElem second inSecond]
    exact before.le
  apply Perm.eq_of_pairwise _ sorted mono ((stableSort_perm compare Prod.fst _).trans (perm.map _))
  -- Entries at the same position are the same column.
  intro left right inSorted inTarget below above
  have inPositions := (stableSort_perm compare Prod.fst _).mem_iff.mp inSorted
  obtain ⟨leftCol, leftMember, rfl⟩ := mem_map.mp inPositions
  obtain ⟨rightCol, _, rfl⟩ := mem_map.mp inTarget
  have same : leftCol = rightCol :=
    (idxOf_inj (perm.mem_iff.mp leftMember)).mp (Nat.le_antisymm below above)
  rw [same]

end

/-! ## Answers for a table -/

variable {V : Type u} [LinearOrder V] {table : Rows V} {cols : List Nat} {key : Key V}
  {first second : ReadySetResult (BagResult V)}

/-- The index is complete for the table. -/
structure Complete (table : Multiset (Row V)) (single : SingleState V) : Prop where
  wellFormed : single.WellFormed
  keyed : single.columns ≠ []
  agrees : single.Agrees (matching table single.columns)

theorem Complete.of_index {single after : SingleState V} (keyed : single.columns ≠ [])
    (index : after.index = single.index) (wf : after.WellFormed)
    (agrees : after.Agrees (matching table single.columns)) : Complete table after := by
  have cols : after.columns = single.columns := congrArg Index.columns index
  exact ⟨wf, cols ▸ keyed, cols ▸ agrees⟩

/-- A lookup succeeds, with a miss or with the table's rows. -/
def Correct (table : Multiset (Row V)) (columns : List Nat) (key : Key V)
    (result : ReadySetResult (BagResult V)) : Prop :=
  result = .ok .missing ∨ result = .ok (.some (matching table columns key))

theorem Correct.orElse
    (correct : Correct table cols key first) (otherwise : Correct table cols key second) :
    Correct table cols key (orElse first second) := by
  rcases correct with rfl | rfl
  · exact otherwise
  · exact .inr rfl

variable {single : SingleState V} {singles : List (SingleState V)} {indexType : IndexType}

theorem Complete.lookup (complete : Complete table single)
    (length : key.length = single.columns.length) :
    Correct table single.columns key (single.lookup key) := by
  rw [SingleState.lookup_eq complete.wellFormed length]
  cases answered : single.answer key with
  | none => exact .inl rfl
  | some rows =>
    rw [complete.agrees key rows answered]
    exact .inr rfl

omit [LinearOrder V] in
theorem pointKeyFrom_map {target : List Nat} (some : target ≠ []) (value : Nat → DfValue V) :
    pointKeyFrom (target.map value) = .ok (target.map value) := by
  rw [pointKeyFrom, if_neg (by simpa using some)]

theorem lookupOtherType_correct (complete : Complete table single)
    (length : key.length = cols.length) :
    Correct table cols key (lookupOtherType single cols key indexType) := by
  rw [lookupOtherType]
  split
  case isTrue applies =>
    rw [← applies.1] at length ⊢
    exact complete.lookup length
  case isFalse => exact .inl rfl

/-- The filter by the remaining columns finds the rows of the whole key. -/
theorem rowMatches_iff (nodup : cols.Nodup) (length : key.length = cols.length)
    {row : Row V} (wide : ∀ col ∈ cols, col < row.length) :
    rowMatches cols key row = true ↔ row.clonedIndices cols = key := by
  rw [rowMatches, all_eq_true]
  conv_rhs => rw [← map_keyAt nodup length, clonedIndices_eq_map_iff]
  have cellOf {entry : Nat × Nat} (mem : entry ∈ cols.zipIdx) :
      row[entry.1]? = key[entry.2]? ↔ row.at entry.1 = keyAt cols key entry.1 := by
    have inColumns := mem_of_getElem? (mem_zipIdx_iff_getElem?.mp mem)
    have inRow := wide entry.1 inColumns
    have asked : key[entry.2]? = some (keyAt cols key entry.1) := by
      conv_lhs => rw [← map_keyAt nodup length]
      exact getElem?_map_of_mem_zipIdx mem
    rw [asked, getElem?_eq_getElem inRow, Option.some_inj, Row.at, getD_eq_getElem _ _ inRow]
  constructor
  · intro all col mem
    obtain ⟨idx, stored⟩ := getElem?_of_mem mem
    have inZip : (col, idx) ∈ cols.zipIdx := mem_zipIdx_iff_getElem?.mpr stored
    exact (cellOf inZip).mp (of_decide_eq_true (all _ inZip))
  · intro all entry mem
    apply decide_eq_true
    exact (cellOf mem).mpr (all entry.1 (mem_of_getElem? (mem_zipIdx_iff_getElem?.mp mem)))

section

variable (complete : Complete table single) (nodup : cols.Nodup) (length : key.length = cols.length)

include complete nodup length

/-- An index on the same columns in another order answers too. -/
theorem lookupShuffled_correct : Correct table cols key (lookupShuffled single cols key) := by
  rw [lookupShuffled]
  split
  case isFalse => exact .inl rfl
  case isTrue applies =>
    obtain ⟨_, sameLength, allFound⟩ := applies
    have sub : ∀ col ∈ cols, col ∈ single.columns := fun col mem =>
      colPosition_isSome.mp (all_eq_true.mp allFound col mem)
    have perm : cols.Perm single.columns := (nodup.subperm sub).perm_of_length_le sameLength.le
    have shuffled : shuffledKey single.columns cols key = single.columns.map (keyAt cols key) := by
      conv_lhs => rw [← map_keyAt nodup length]
      exact shuffledKey_map (perm.nodup_iff.mp nodup) sameLength
        (fun col mem => perm.mem_iff.mpr mem)
    have sameRows : matching table single.columns (single.columns.map (keyAt cols key)) =
        matching table cols key := by
      apply Multiset.filter_congr
      intro row _
      rw [clonedIndices_eq_map_iff]
      conv_rhs => rw [← map_keyAt nodup length, clonedIndices_eq_map_iff]
      exact forall_congr' fun col => imp_congr_left perm.mem_iff.symm
    rw [shuffled, pointKeyFrom_map complete.keyed]
    rw [Correct, ← sameRows]
    exact complete.lookup (length_map _)

/-- The rows found under fewer columns are filtered by the remaining ones. -/
theorem lookupNarrower_correct (wide : ∀ row ∈ table, ∀ col ∈ cols, col < row.length) :
    Correct table cols key (lookupNarrower single cols key) := by
  have positions : narrowPositions single.columns cols key =
      (cols.filter fun col => col ∈ single.columns).map
        (positioned single.columns (keyAt cols key)) := by
    conv_lhs => rw [← map_keyAt nodup length]
    exact narrowPositions_map _
  rw [lookupNarrower]
  split
  case isFalse => exact .inl rfl
  case isTrue applies =>
    have perm : (cols.filter fun col => col ∈ single.columns).Perm single.columns := by
      apply perm_of_length nodup
      rw [← applies.2, positions, length_map]
    have sub : ∀ col ∈ single.columns, col ∈ cols := fun col mem =>
      (mem_filter.mp (perm.mem_iff.mpr mem)).1
    have narrow : (stableSort compare Prod.fst
        (narrowPositions single.columns cols key)).map Prod.snd =
        single.columns.map (keyAt cols key) := by
      rw [positions, stableSort_positioned (perm.nodup_iff.mp (nodup.filter _)) perm, map_map]
      rfl
    rw [narrow, pointKeyFrom_map complete.keyed]
    rcases complete.lookup (length_map (keyAt cols key)) with missed | found
    · left
      simp [missed]
    · right
      simp only [found]
      -- The rows of the key's columns are among those of fewer columns.
      congr 2
      rw [matching, Multiset.filter_filter]
      apply Multiset.filter_congr
      intro row mem
      rw [rowMatches_iff nodup length (wide row mem), and_iff_left_iff_imp]
      intro isKey
      rw [← map_keyAt nodup length, clonedIndices_eq_map_iff] at isKey
      exact clonedIndices_eq_map_iff.mpr fun col inIndex => isKey col (sub col inIndex)

end

theorem lookupOthers_correct
    (complete : ∀ single ∈ singles, Complete table single) (nodup : cols.Nodup)
    (length : key.length = cols.length) (wide : ∀ row ∈ table, ∀ col ∈ cols, col < row.length) :
    Correct table cols key (lookupOthers cols key indexType singles) := by
  induction singles with
  | nil => exact .inl rfl
  | cons single rest ih =>
    have here := complete single (by simp)
    have later := ih fun other mem => complete other (by simp [mem])
    apply (lookupOtherType_correct here length).orElse
    apply (lookupShuffled_correct here nodup length).orElse
    exact (lookupNarrower_correct here nodup length wide).orElse later

variable {memory : MemoryState V} {full : SingleState V}

theorem stateFor_spec {idx : Nat} (found : memory.stateFor cols indexType = some idx) :
    ∃ single, memory.state[idx]? = some single ∧ single.columns = cols ∧
      single.indexType = indexType := by
  obtain ⟨bound, holds, _⟩ := findIdx?_eq_some_iff_getElem.mp found
  exact ⟨memory.state[idx], getElem?_eq_getElem bound, of_decide_eq_true holds⟩

theorem stateFor_isSome (mem : single ∈ memory.state) :
    (memory.stateFor single.columns single.indexType).isSome = true := by
  rw [stateFor, findIdx?_isSome, any_eq_true]
  exact ⟨single, mem, decide_eq_true ⟨rfl, rfl⟩⟩

theorem exists_of_indexed (indexed : ∃ single ∈ memory.state, single.columns = cols) :
    ∃ idx single, (memory.stateFor cols .hashMap).or (memory.stateFor cols .bTreeMap) = some idx ∧
      memory.state[idx]? = some single ∧ single.columns = cols := by
  obtain ⟨single, mem, rfl⟩ := indexed
  have isSome := stateFor_isSome mem
  cases hashed : memory.stateFor single.columns .hashMap with
  | some idx =>
    obtain ⟨found, here, sameColumns, _⟩ := stateFor_spec hashed
    exact ⟨idx, found, Option.some_or, here, sameColumns⟩
  | none =>
    cases kind : single.indexType with
    | hashMap =>
      rw [kind, hashed] at isSome
      contradiction
    | bTreeMap =>
      rw [kind] at isSome
      obtain ⟨idx, ordered⟩ := Option.isSome_iff_exists.mp isSome
      obtain ⟨found, here, sameColumns, _⟩ := stateFor_spec ordered
      exact ⟨idx, found, Option.none_or.trans ordered, here, sameColumns⟩

/-- **A lookup on an indexed column list** misses or returns the table's rows
for the key. -/
theorem lookup_correct (complete : ∀ single ∈ memory.state, Complete table single)
    (indexed : ∃ single ∈ memory.state, single.columns = cols) (nodup : cols.Nodup)
    (length : key.length = cols.length) (wide : ∀ row ∈ table, ∀ col ∈ cols, col < row.length) :
    Correct table cols key (memory.lookup cols key) := by
  obtain ⟨idx, single, first, here, sameColumns⟩ := exists_of_indexed indexed
  have completeHere := complete single (mem_of_getElem? here)
  simp only [lookup, first, here]
  refine Correct.orElse ?_ (lookupOthers_correct complete nodup length wide)
  rw [← sameColumns] at length ⊢
  exact completeHere.lookup length

omit [LinearOrder V] in
theorem orElse_ne_missing
    (either : first ≠ .ok .missing ∨ second ≠ .ok .missing) : orElse first second ≠ .ok .missing := by
  cases first with
  | error error => simp [orElse]
  | ok result =>
    cases result with
    | some rows => simp [orElse]
    | missing => exact either.resolve_left fun notMissing => notMissing rfl

/-- A full index on the columns, of another type than the first one tried, does
not miss in the loop. -/
theorem lookupOthers_ne_missing
    (mem : full ∈ singles) (wf : full.WellFormed) (isFull : full.isPartial = false)
    (length : key.length = full.columns.length) (otherType : full.indexType ≠ indexType) :
    lookupOthers full.columns key indexType singles ≠ .ok .missing := by
  induction singles with
  | nil => simp at mem
  | cons single rest ih =>
    apply orElse_ne_missing
    rcases mem_cons.mp mem with rfl | later
    · left
      obtain ⟨rows, answered⟩ :=
        Option.isSome_iff_exists.mp (SingleState.answer_isSome_of_full isFull key)
      rw [lookupOtherType, if_pos ⟨rfl, otherType⟩, SingleState.lookup_eq wf length, answered]
      simp
    · right
      apply orElse_ne_missing
      right
      apply orElse_ne_missing
      right
      exact ih later

/-- **A lookup on the columns of a full index never misses.** -/
theorem lookup_ne_missing (wf : ∀ single ∈ memory.state, single.WellFormed)
    (distinctIndices : (memory.state.map SingleState.index).Nodup) (mem : full ∈ memory.state)
    (isFull : full.isPartial = false) (length : key.length = full.columns.length) :
    memory.lookup full.columns key ≠ .ok .missing := by
  obtain ⟨idx, single, first, here, sameColumns⟩ := exists_of_indexed ⟨full, mem, rfl⟩
  have isMember := mem_of_getElem? here
  simp only [lookup, first, here]
  apply orElse_ne_missing
  by_cases sameType : full.indexType = single.indexType
  · left
    have sameIndex : single.index = full.index := by
      cases isSingle : single.index with
      | mk _ _ => cases isFull' : full.index with
        | mk _ _ =>
          simp only [SingleState.columns, SingleState.indexType, isSingle, isFull'] at *
          rw [sameColumns, sameType]
    have same : single = full := inj_on_of_nodup_map distinctIndices isMember mem sameIndex
    obtain ⟨rows, answered⟩ :=
      Option.isSome_iff_exists.mp (SingleState.answer_isSome_of_full isFull key)
    rw [same, SingleState.lookup_eq (wf full mem) length, answered]
    simp
  · right
    exact lookupOthers_ne_missing mem (wf full mem) isFull length sameType

end MemoryState

end ReadySet.DataflowState
