import ReadySet.DataflowState.PartialMap

/-!
Owns one index as a map from keys to bags of rows (`KeyedState`), and its
abstraction (`view`): the bag of each filled key. Every operation is described
by what it does to the view.

The source has one constructor for each key length up to six and one for longer
keys; here the length is a parameter. Keys are the lists of their values. The
order of a hash map's entries, which only a random seed can tell, is not the
source's. Debug assertions have no effect.
-/

namespace ReadySet.DataflowState

open Data Library Dataflow List Function
open PartialMap (get_eq getMut_of_some getMut_of_none remove get_remove keys)

universe u

inductive IndexType where
  | hashMap
  | bTreeMap
deriving DecidableEq, Repr

structure Index where
  indexType : IndexType
  columns : List Nat
deriving DecidableEq, Repr

/-- `Rows`: a bag of rows. -/
abbrev Rows (V : Type u) := Multiset (Row V)

section

variable {V : Type u} {len : Nat}

/-- `MakeKey::from_key`: a tuple key takes the values it has room for. -/
def fromKey (len : Nat) (key : Key V) : ReadySetResult (Key V) :=
  if len ≤ 6 then
    if key.length < len then .error (.panicked "index out of bounds") else .ok (key.take len)
  else .ok key

/-- `MakeKey::from_range`, on one bound. -/
def fromBound (len : Nat) : Bound (Key V) → ReadySetResult (Bound (Key V))
  | .included point => (fromKey len point).map .included
  | .excluded point => (fromKey len point).map .excluded
  | .unbounded => .ok .unbounded

/-- A bound's endpoint, if it has one, has the length of the keys. -/
def boundFits (len : Nat) : Bound (Key V) → Bool
  | .included point => point.length = len
  | .excluded point => point.length = len
  | .unbounded => true

theorem fromKey_of_length {key : Key V} (length : key.length = len) :
    fromKey len key = .ok key := by
  rw [fromKey, ← length]
  simp

theorem fromBound_of_fits {bound : Bound (Key V)} (fits : boundFits len bound) :
    fromBound len bound = .ok bound := by
  cases bound with
  | included point => simp [fromBound, fromKey_of_length (of_decide_eq_true fits), Except.map]
  | excluded point => simp [fromBound, fromKey_of_length (of_decide_eq_true fits), Except.map]
  | unbounded => rfl

end

variable {V : Type u} [LinearOrder V]

/-- `KeyedState`, with the length of its keys. -/
inductive KeyedState (V : Type u) [LinearOrder V] where
  | bTree (len : Nat) (map : PartialMap (Key V) (Rows V) Key.cmp)
  | hash (len : Nat) (map : AList fun _ : Key V => Rows V)

namespace KeyedState

/-- `KeyedState::from`. -/
def ofIndex (index : Index) : KeyedState V :=
  match index.indexType with
  | .bTreeMap => .bTree index.columns.length {}
  | .hashMap => .hash index.columns.length ∅

def keyLen : KeyedState V → Nat
  | .bTree len _ => len
  | .hash len _ => len

/-- The kind of map behind it. -/
def indexType : KeyedState V → IndexType
  | .bTree _ _ => .bTreeMap
  | .hash _ _ => .hashMap

/-- The kind of map and the length of its keys, which never change. -/
def shape (state : KeyedState V) : IndexType × Nat := (state.indexType, state.keyLen)

def keyCount : KeyedState V → Nat
  | .bTree _ map => map.numKeys
  | .hash _ map => map.entries.length

/-- The bag of a filled key. -/
def view : KeyedState V → Key V → Option (Rows V)
  | .bTree _ map, key => map.get key
  | .hash _ map, key => map.lookup key

def lookup (state : KeyedState V) (key : Key V) : ReadySetResult (Option (Rows V)) :=
  if key.length = state.keyLen then .ok (state.view key)
  else .error (.panicked "Invalid key type for KeyedState")

def insert (cols : List Nat) (row : Row V) (isPartial : Bool) :
    KeyedState V → Bool × KeyedState V
  | .bTree len map =>
    let key := row.clonedIndices cols
    match map.getMut key with
    | (some rows, map) => (true, .bTree len (map.write key (row ::ₘ rows)))
    | (none, map) =>
      if isPartial then (false, .bTree len map)
      else (true, .bTree len (map.insert key {row}).2)
  | .hash len map =>
    let key := row.clonedIndices cols
    match map.lookup key with
    | some rows => (true, .hash len (map.insert key (row ::ₘ rows)))
    | none =>
      if isPartial then (false, .hash len map)
      else (true, .hash len (map.insert key {row}))

/-- `do_remove`: a sole row is taken without being compared. -/
def doRemove (row : Row V) (rows : Rows V) : Option (Row V) × Rows V :=
  if rows.card = 1 then ((ascending rows).head?, 0)
  else if row ∈ rows then (some row, rows.erase row)
  else (none, rows)

/-- What `KeyedState::remove` gives: the removed row, and whether the key exists. -/
structure Removal (V : Type u) [LinearOrder V] where
  removed : Option (Row V)
  hit : Bool
  state : KeyedState V

def remove (cols : List Nat) (row : Row V) : KeyedState V → Removal V
  | .bTree len map =>
    let key := row.clonedIndices cols
    match map.getMut key with
    | (some rows, map) =>
      let (removed, rows) := doRemove row rows
      { removed, hit := true, state := .bTree len (map.write key rows) }
    | (none, map) => { removed := none, hit := false, state := .bTree len map }
  | .hash len map =>
    let key := row.clonedIndices cols
    match map.lookup key with
    | some rows =>
      let (removed, rows) := doRemove row rows
      { removed, hit := true, state := .hash len (map.insert key rows) }
    | none => { removed := none, hit := false, state := .hash len map }

def insertRange (lower upper : Bound (Key V)) : KeyedState V → ReadySetResult (KeyedState V)
  | .bTree len map =>
    if 6 < len ∧ ¬ (boundFits len lower ∧ boundFits len upper) then
      .error (.panicked "insert_range called on a HashMap KeyedState")
    else do
      let lower ← fromBound len lower
      let upper ← fromBound len upper
      let map ← map.insertRange lower upper
      return .bTree len map
  | .hash _ _ => .error (.panicked "insert_range called on a HashMap KeyedState")

def evict (key : Key V) : KeyedState V → ReadySetResult (Option (Rows V) × KeyedState V)
  | .bTree len map => do
      let key ← fromKey len key
      let (rows, map) := map.remove key
      return (rows, .bTree len map)
  | .hash len map => do
      let key ← fromKey len key
      return (map.lookup key, .hash len (map.erase key))

/-- `KeyedState::evict_range`: the distinct rows of each evicted key. -/
def evictRange (lower upper : Bound (Key V)) :
    KeyedState V → ReadySetResult (Rows V × KeyedState V)
  | .bTree len map => do
      let lower ← fromBound len lower
      let upper ← fromBound len upper
      let (values, map) ← map.removeRange lower upper
      return ((values.map Multiset.dedup).sum, .bTree len map)
  | .hash _ _ => .error (.panicked "evict_range called on a HashMap KeyedState")

/-- `KeyedState::evict_with_seed`. Hash maps with keys of length five are left
out by the source. -/
def evictWithSeed (seed : Nat) (state : KeyedState V) : Option (Rows V × Key V) × KeyedState V :=
  match state with
  | .hash len map =>
    if len = 5 then (none, state)
    else
      match map.entries[seed % map.entries.length]? with
      | none => (none, state)
      | some entry => (some (entry.2, entry.1), .hash len (map.erase entry.1))
  | .bTree len map =>
    match map.keys[seed % map.numKeys]? with
    | none => (none, state)
    | some key =>
      match map.remove key with
      | (none, _) => (none, state)
      | (some rows, map) => (some (rows, key), .bTree len map)

/-- The bags in the map. -/
def values : KeyedState V → List (Rows V)
  | .bTree _ map => map.values
  | .hash _ map => map.entries.map fun entry => entry.2

def keys : KeyedState V → List (Key V)
  | .bTree _ map => map.keys
  | .hash _ map => map.keys

/-- The bag that the map itself has for a key. -/
def stored : KeyedState V → Key V → Option (Rows V)
  | .bTree _ map, key => map.map.get? key
  | .hash _ map, key => map.lookup key

/-- The key that `evict_with_seed` picks. -/
def atSeed (seed : Nat) (state : KeyedState V) : Option (Key V) :=
  if state.shape = (.hashMap, 5) then none else state.keys[seed % state.keyCount]?

/-- `map.clear()` of every kind of map. -/
def clear : KeyedState V → KeyedState V
  | .bTree len _ => .bTree len {}
  | .hash len _ => .hash len ∅

/-! ## What the operations do to the view -/

section

variable {state : KeyedState V} {cols : List Nat} {row : Row V} {rows : Rows V}

theorem shape_ofIndex (index : Index) :
    (ofIndex index : KeyedState V).shape = (index.indexType, index.columns.length) := by
  rw [ofIndex]
  cases index.indexType <;> rfl

@[simp] theorem view_ofIndex (index : Index) (key : Key V) :
    (ofIndex index : KeyedState V).view key = none := by
  rw [ofIndex]
  cases index.indexType <;> rfl

variable {key : Key V}

theorem lookup_eq (state : KeyedState V) (length : key.length = state.keyLen) :
    state.lookup key = .ok (state.view key) := if_pos length

/-- A range without a bag for the key answers with no rows. -/
theorem getD_view (state : KeyedState V) (key : Key V) :
    (state.view key).getD 0 = (state.stored key).getD 0 := by
  cases state with
  | bTree len map =>
    rw [view, get_eq, stored]
    cases map.map.get? key with
    | some rows => rfl
    | none => split <;> rfl
  | hash len map => rfl

theorem stored_eq_none (hole : state.view key = none) : state.stored key = none := by
  cases state with
  | bTree len map =>
    rw [view, get_eq, Option.or_eq_none_iff] at hole
    exact hole.1
  | hash len map => exact hole

variable {len : Nat} {map : PartialMap (Key V) (Rows V) Key.cmp}

theorem view_write_getMut (rows : Rows V) :
    (bTree len ((map.getMut key).2.write key rows)).view =
      update (bTree len map).view key (some rows) := by
  funext other
  rw [update_apply]
  change ((map.getMut key).2.write key rows).get other = if other = key then some rows else _
  rw [PartialMap.get_write, PartialMap.get_getMut]
  rfl

theorem view_bTree_insert (rows : Rows V) :
    (bTree len (map.insert key rows).2).view = update (bTree len map).view key (some rows) := by
  funext other
  rw [update_apply]
  exact PartialMap.get_insert key other rows

theorem view_hash_insert {map : AList fun _ : Key V => Rows V} (rows : Rows V) :
    (hash len (map.insert key rows)).view = update (hash len map).view key (some rows) := by
  funext other
  rw [update_apply]
  split
  case isTrue same =>
    subst same
    exact AList.lookup_insert map
  case isFalse ne => exact AList.lookup_insert_ne ne

theorem view_hash_erase {map : AList fun _ : Key V => Rows V} :
    (hash len (map.erase key)).view = update (hash len map).view key none := by
  funext other
  rw [update_apply]
  split
  case isTrue same =>
    subst same
    exact AList.lookup_erase other map
  case isFalse ne => exact AList.lookup_erase_ne ne

/-- Only a partial index has holes, which take no rows. -/
theorem insert_spec (isPartial : Bool) :
    (state.insert cols row isPartial).1 =
        ((state.view (row.clonedIndices cols)).isSome || !isPartial) ∧
      (state.insert cols row isPartial).2.view =
        if (state.view (row.clonedIndices cols)).isSome || !isPartial then
          update state.view (row.clonedIndices cols)
            (some (row ::ₘ (state.view (row.clonedIndices cols)).getD 0))
        else state.view := by
  cases filled : state.view (row.clonedIndices cols) with
  | some rows =>
    cases state with
    | bTree len map =>
      rw [insert, getMut_of_some filled]
      exact ⟨rfl, view_write_getMut _⟩
    | hash len map =>
      simp only [insert, show map.lookup (row.clonedIndices cols) = some rows from filled]
      exact ⟨rfl, view_hash_insert _⟩
  | none =>
    cases state with
    | bTree len map =>
      rw [insert, getMut_of_none filled]
      cases isPartial with
      | true => exact ⟨rfl, rfl⟩
      | false => exact ⟨rfl, view_bTree_insert _⟩
    | hash len map =>
      simp only [insert, show map.lookup (row.clonedIndices cols) = none from filled]
      cases isPartial with
      | true => exact ⟨rfl, rfl⟩
      | false => exact ⟨rfl, view_hash_insert _⟩

theorem remove_spec :
    (state.remove cols row).hit = (state.view (row.clonedIndices cols)).isSome ∧
      (state.remove cols row).state.view = update state.view (row.clonedIndices cols)
        ((state.view (row.clonedIndices cols)).map fun rows => (doRemove row rows).2) := by
  cases filled : state.view (row.clonedIndices cols) with
  | some rows =>
    cases state with
    | bTree len map =>
      rw [remove, getMut_of_some filled]
      exact ⟨rfl, view_write_getMut _⟩
    | hash len map =>
      simp only [remove, show map.lookup (row.clonedIndices cols) = some rows from filled]
      exact ⟨rfl, view_hash_insert _⟩
  | none =>
    have same := update_eq_self (row.clonedIndices cols) state.view
    rw [filled] at same
    rw [Option.map_none, same]
    cases state with
    | bTree len map =>
      rw [remove, getMut_of_none filled]
      exact ⟨rfl, rfl⟩
    | hash len map =>
      simp [remove, show map.lookup (row.clonedIndices cols) = none from filled]

theorem doRemove_of_mem (mem : row ∈ rows) : (doRemove row rows).2 = rows.erase row := by
  rw [doRemove]
  split
  case isTrue single =>
    obtain ⟨only, rfl⟩ := Multiset.card_eq_one.mp single
    rw [Multiset.mem_singleton.mp mem]
    simp
  case isFalse => simp

theorem removed_isSome (filled : state.view (row.clonedIndices cols) = some rows)
    (mem : row ∈ rows) : (state.remove cols row).removed.isSome = true := by
  have removed : (state.remove cols row).removed = (doRemove row rows).1 := by
    cases state with
    | bTree len map => rw [remove, getMut_of_some filled]
    | hash len map =>
      simp [remove, show map.lookup (row.clonedIndices cols) = some rows from filled]
  rw [removed, doRemove]
  split
  case isTrue single =>
    obtain ⟨only, rfl⟩ := Multiset.card_eq_one.mp single
    rfl
  case isFalse => simp

theorem evict_spec (length : key.length = state.keyLen) :
    ∃ rows rest, state.evict key = .ok (rows, rest) ∧ rows.getD 0 = (state.view key).getD 0 ∧
      rest.shape = state.shape ∧ rest.view = update state.view key none := by
  have whole := fromKey_of_length length
  cases state with
  | bTree len map =>
    refine ⟨map.map.get? key, .bTree len (map.remove key).2, ?_,
      (getD_view (.bTree len map) key).symm, rfl, ?_⟩
    · simp [evict, show fromKey len key = .ok key from whole, PartialMap.remove]
    · funext other
      rw [update_apply]
      exact get_remove key other
  | hash len map =>
    refine ⟨map.lookup key, .hash len (map.erase key), ?_, rfl, rfl, view_hash_erase⟩
    simp [evict, show fromKey len key = .ok key from whole]

section

variable (map : PartialMap (Key V) (Rows V) Key.cmp) {lower upper : Bound (Key V)}
  (lowerFits : boundFits len lower) (upperFits : boundFits len upper)
  (valid : checkRange Key.cmp lower upper = .ok ⟨⟩)

include lowerFits upperFits valid

theorem insertRange_spec :
    ∃ filled, (bTree len map).insertRange lower upper = .ok filled ∧
      filled.shape = (.bTreeMap, len) ∧
      ∀ key, filled.view key =
        if rangeContains Key.cmp lower upper key then some (((bTree len map).view key).getD 0)
        else (bTree len map).view key := by
  have ok : map.insertRange lower upper = .ok { map with
      intervalTree := ⟨fun key => rangeContains Key.cmp lower upper key ||
        map.intervalTree.covers key⟩ } := by
    simp [PartialMap.insertRange, IntervalTreeSet.insertInterval, valid]
  refine ⟨.bTree len _, ?_, rfl, fun key => PartialMap.get_insertRange ok key⟩
  simp [insertRange, lowerFits, upperFits, fromBound_of_fits lowerFits, fromBound_of_fits upperFits,
    ok]

theorem evictRange_spec :
    ∃ rest, (bTree len map).evictRange lower upper =
        .ok ((((map.map.retain (rangeContains Key.cmp lower upper)).entries.map
          fun entry => Multiset.dedup entry.2)).sum, rest) ∧
      rest.shape = (.bTreeMap, len) ∧ ∀ key, rest.view key =
        if rangeContains Key.cmp lower upper key then none else (bTree len map).view key := by
  have ok : map.removeRange lower upper =
      .ok ((map.map.retain (rangeContains Key.cmp lower upper)).entries.map Prod.snd,
        { map := map.map.retain fun key => !rangeContains Key.cmp lower upper key
          intervalTree := ⟨fun key => !rangeContains Key.cmp lower upper key &&
            map.intervalTree.covers key⟩ }) := by
    simp [PartialMap.removeRange, IntervalTreeSet.removeInterval, valid]
  refine ⟨.bTree len _, ?_, rfl, fun key => PartialMap.get_removeRange ok key⟩
  simp [evictRange, fromBound_of_fits lowerFits, fromBound_of_fits upperFits, ok, comp_def]

end

/-- A seed picks one filled key and empties it, or there is none. -/
theorem evictWithSeed_spec (seed : Nat) (state : KeyedState V) :
    (∃ rows key rest, state.evictWithSeed seed = (some (rows, key), rest) ∧
      state.atSeed seed = some key ∧ state.view key = some rows ∧ rest.shape = state.shape ∧
      rest.view = update state.view key none) ∨
    state.evictWithSeed seed = (none, state) ∧ state.atSeed seed = none := by
  cases state with
  | bTree len map =>
    have atSeed : (bTree len map).atSeed seed = map.keys[seed % map.numKeys]? := rfl
    cases picked : map.keys[seed % map.numKeys]? with
    | none => exact .inr ⟨by simp only [evictWithSeed, picked], atSeed.trans picked⟩
    | some key =>
      obtain ⟨entry, mem, rfl⟩ := List.mem_map.mp (mem_of_getElem? picked)
      have stored : map.map.get? entry.1 = some entry.2 := BTreeMap.get?_eq_some.mpr mem
      refine .inl ⟨entry.2, entry.1, .bTree len (map.remove entry.1).2, ?_,
        atSeed.trans picked, ?_, rfl, ?_⟩
      · simp [evictWithSeed, picked, PartialMap.remove, stored]
      · rw [view, PartialMap.get_eq, stored, Option.some_or]
      · funext other
        rw [update_apply]
        exact get_remove entry.1 other
  | hash len map =>
    by_cases five : len = 5
    · exact .inr ⟨by simp only [evictWithSeed, if_pos five], by simp [atSeed, shape, five, keyLen,
        indexType]⟩
    · have atSeed : (hash len map).atSeed seed =
          (map.entries[seed % map.entries.length]?).map Sigma.fst := by
        simp [atSeed, shape, five, keyLen, keys, keyCount, AList.keys, List.keys]
      cases picked : map.entries[seed % map.entries.length]? with
      | none =>
        exact .inr ⟨by simp only [evictWithSeed, if_neg five, picked], by rw [atSeed, picked]; rfl⟩
      | some entry =>
        refine .inl ⟨entry.2, entry.1, .hash len (map.erase entry.1), ?_,
          by rw [atSeed, picked]; rfl, ?_, rfl, view_hash_erase⟩
        · simp [evictWithSeed, if_neg five, picked]
        · exact AList.mem_lookup_iff.mpr (mem_of_getElem? picked)

theorem shape_insert (isPartial : Bool) :
    (state.insert cols row isPartial).2.shape = state.shape := by
  cases state with
  | bTree len map | hash len map =>
    simp only [insert]
    split
    · rfl
    · split <;> rfl

theorem shape_remove : (state.remove cols row).state.shape = state.shape := by
  cases state with
  | bTree len map | hash len map =>
    simp only [remove]
    split <;> rfl

theorem keys_nodup (state : KeyedState V) : state.keys.Nodup := by
  cases state with
  | bTree len map =>
    refine List.Pairwise.map _ (fun left right below same => ?_) map.map.sorted
    simp [same, @Std.ReflCmp.compare_self _ Key.cmp] at below
  | hash len map => exact map.keys_nodup

theorem get?_of_view (filled : (bTree len map).view key = some rows) (mem : row ∈ rows) :
    map.map.get? key = some rows := by
  rw [view, get_eq] at filled
  cases stored : map.map.get? key with
  | some value =>
    rw [stored] at filled
    exact filled
  | none =>
    rw [stored] at filled
    split at filled
    · obtain rfl := Option.some.inj filled
      exact absurd mem (Multiset.notMem_zero row)
    · contradiction

theorem mem_keys_of_view (filled : state.view key = some rows) (mem : row ∈ rows) :
    key ∈ state.keys := by
  cases state with
  | bTree len map =>
    exact List.mem_map.mpr ⟨(key, rows), BTreeMap.get?_eq_some.mp (get?_of_view filled mem), rfl⟩
  | hash len map => exact AList.lookup_isSome.mp (by simp [show map.lookup key = _ from filled])

theorem values_eq (state : KeyedState V) :
    state.values = state.keys.map fun key => (state.view key).getD 0 := by
  cases state with
  | bTree len map =>
    simp only [keys, PartialMap.keys, map_map]
    apply map_congr_left
    intro entry mem
    simp [view, get_eq, BTreeMap.get?_eq_some.mpr mem]
  | hash len map =>
    simp only [keys, AList.keys, List.keys, map_map]
    apply map_congr_left
    intro entry mem
    have found : map.lookup entry.1 = some entry.2 := AList.mem_lookup_iff.mpr mem
    simp [view, found]

end

end KeyedState

end ReadySet.DataflowState
