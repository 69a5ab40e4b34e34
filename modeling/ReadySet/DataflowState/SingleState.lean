import ReadySet.Library.Keyed
import ReadySet.DataflowState.KeyedState

/-!
Owns one strict index (`SingleState`): its columns, whether it is partial, and
its keyed state. A full index answers every key; a partial one answers its
filled keys (`answer`).

Does not own memory accounting: the byte counts that `mark_hole` returns.
-/

namespace ReadySet.DataflowState

open Data Library Dataflow KeyedState Function Option

universe u

variable {V : Type u} [LinearOrder V]

/-- `LookupResult`, with the rows as a bag. -/
inductive BagResult (V : Type u) where
  | some (rows : Rows V)
  | missing

structure SingleState (V : Type u) [LinearOrder V] where
  index : Index
  state : KeyedState V
  isPartial : Bool
  rowCount : Nat := 0

namespace SingleState

/-- `SingleState::new`: a full B-tree index covers all keys from the start. -/
def new (index : Index) (isPartial : Bool) : ReadySetResult (SingleState V) := do
  let state : KeyedState V := .ofIndex index
  let state ← if isPartial = false ∧ index.indexType = .bTreeMap then
      state.insertRange .unbounded .unbounded
    else pure state
  return { index, state, isPartial }

variable (single : SingleState V)

def columns : List Nat := single.index.columns

def indexType : IndexType := single.index.indexType

def insertRow (row : Row V) : Bool × SingleState V :=
  let (added, state) := single.state.insert single.columns row single.isPartial
  (added, { single with
    state
    rowCount := if added then single.rowCount + 1 else single.rowCount })

/-- `SingleState::remove_row`, with the flag it raises. -/
def removeRow (row : Row V) : Bool × SingleState V :=
  let removal := single.state.remove single.columns row
  (removal.hit, { single with
    state := removal.state
    rowCount := if removal.removed.isSome then single.rowCount - 1 else single.rowCount })

def markPointFilled (key : Key V) : ReadySetResult (SingleState V) :=
  if key.length ≠ single.state.keyLen then
    .error (.panicked "assertion failed: key.len() is the length of the index")
  else
    let (replaced, state) : Option (Rows V) × KeyedState V :=
      match single.state with
      | .bTree len map => ((map.insert key 0).1, .bTree len (map.insert key 0).2)
      | .hash len map => (map.lookup key, .hash len (map.insert key 0))
    if replaced.isNone then .ok { single with state }
    else .error (.panicked "assertion failed: replaced.is_none()")

def markFilled : KeyComparison V → ReadySetResult (SingleState V)
  | .equal key => single.markPointFilled key
  | .range lower upper => do
      let state ← single.state.insertRange lower upper
      return { single with state }

def markHole : KeyComparison V → ReadySetResult (SingleState V)
  | .equal key => do
      let (_, state) ← single.state.evict key
      return { single with state }
  | .range lower upper =>
    match single.state with
    | .bTree _ _ => do
        let (_, state) ← single.state.evictRange lower upper
        return { single with state }
    | .hash _ _ =>
      .error (.panicked "mark_hole with a range key called on a HashMap SingleState")

/-- The rows that one key of `SingleState::evict_keys` yields, each once. -/
def evictKey : KeyComparison V → ReadySetResult (Rows V × SingleState V)
  | .equal key => do
      let (rows, state) ← single.state.evict key
      return ((rows.getD 0).dedup, { single with state })
  | .range lower upper => do
      let (rows, state) ← single.state.evictRange lower upper
      return (rows.dedup, { single with state })

def evictKeys (keys : List (KeyComparison V)) : ReadySetResult (Rows V × SingleState V) :=
  keys.foldlM
    (fun (evicted, single) key => do
      let (rows, single) ← single.evictKey key
      return (evicted + rows, single))
    (0, single)

/-- `SingleState::evict_random`, with the random number. -/
def evictRandom (seed : Nat) : Option (Key V × Rows V) × SingleState V :=
  match single.state.evictWithSeed seed with
  | (none, state) => (none, { single with state })
  | (some (rows, key), state) =>
    (some (key, rows), { single with state, rowCount := single.rowCount - 1 })

def values : List (Rows V) := single.state.values

def lookup (key : Key V) : ReadySetResult (BagResult V) := do
  match ← single.state.lookup key with
  | some rows => return .some rows
  | none => return if single.isPartial then .missing else .some 0

/-! ## Answers -/

/-- The rows an index answers a key with. -/
def answer (key : Key V) : Option (Rows V) :=
  (single.state.view key).or (if single.isPartial then none else some 0)

/-- The keyed state is the one of the index. -/
def WellFormed : Prop := single.state.shape = (single.indexType, single.columns.length)

/-- **The index is complete for some contents**: whatever it answers is the
contents' rows for the key. -/
def Agrees (contents : Key V → Rows V) : Prop :=
  ∀ key rows, single.answer key = some rows → rows = contents key

variable {single} {contents : Key V → Rows V} {row : Row V} {key : Key V}

theorem lookup_eq (wf : single.WellFormed) (length : key.length = single.columns.length) :
    single.lookup key = .ok (match single.answer key with
        | some rows => .some rows
        | none => .missing) := by
  have keyLen : single.state.keyLen = single.columns.length := (Prod.mk.inj wf).2
  rw [← keyLen] at length
  simp only [lookup, single.state.lookup_eq length, answer]
  cases single.state.view key with
  | some rows => rfl
  | none => cases single.isPartial <;> rfl

theorem answer_isSome_of_full (full : single.isPartial = false) (key : Key V) :
    (single.answer key).isSome = true := by
  simp [answer, full]

theorem answer_of_view {rows : Rows V} (filled : single.state.view key = some rows) :
    single.answer key = some rows := by
  rw [answer, filled, some_or]

theorem answer_eq_view (isPartial : single.isPartial = true) (key : Key V) :
    single.answer key = single.state.view key := by
  simp [answer, isPartial]

theorem insertRow_hit : (single.insertRow row).1 =
    (single.answer (row.clonedIndices single.columns)).isSome := by
  refine (insert_spec single.isPartial).1.trans ?_
  cases isPartial : single.isPartial <;> simp [answer, isPartial]

theorem insertRow_answer (key : Key V) : (single.insertRow row).2.answer key =
    if key = row.clonedIndices single.columns then (single.answer key).map (row ::ₘ ·)
    else single.answer key := by
  have viewed : (single.insertRow row).2.answer key =
      ((single.state.insert single.columns row single.isPartial).2.view key).or
        (if single.isPartial then none else some 0) := rfl
  rw [viewed, (insert_spec single.isPartial).2, answer]
  by_cases same : key = row.clonedIndices single.columns
  · subst same
    cases single.isPartial <;>
      cases filled : single.state.view (row.clonedIndices single.columns) <;> simp [filled]
  · rw [if_neg same]
    split
    · rw [update_of_ne same]
    · rfl

section

variable (agrees : single.Agrees contents)

include agrees

theorem insertRow_agrees (row : Row V) :
    (single.insertRow row).2.Agrees (update contents (row.clonedIndices single.columns)
        (row ::ₘ contents (row.clonedIndices single.columns))) := by
  intro key rows answered
  rw [insertRow_answer] at answered
  rw [update_apply]
  split at answered
  case isTrue same =>
    obtain ⟨before, held, rfl⟩ := map_eq_some_iff.mp answered
    rw [if_pos same, ← same, agrees key before held]
  case isFalse ne =>
    rw [if_neg ne]
    exact agrees key rows answered

/-- A removed row leaves its key, and no other. -/
theorem removeRow_agrees (mem : row ∈ contents (row.clonedIndices single.columns)) :
    (single.removeRow row).2.Agrees (update contents (row.clonedIndices single.columns)
        ((contents (row.clonedIndices single.columns)).erase row)) := by
  intro key rows answered
  have answerIs : (single.removeRow row).2.answer key = ((single.removeRow row).2.state.view key).or
        (if single.isPartial then none else some 0) := rfl
  have viewed : (single.removeRow row).2.state.view = _ := remove_spec.2
  rw [answerIs, viewed] at answered
  by_cases same : key = row.clonedIndices single.columns
  · subst same
    rw [update_self] at answered ⊢
    cases filled : single.state.view (row.clonedIndices single.columns) with
    | some held =>
      have heldIs := agrees _ held (answer_of_view filled)
      rw [filled, map_some, doRemove_of_mem (heldIs ▸ mem)] at answered
      rw [← heldIs, some.inj answered]
    | none =>
      -- A full index without the key would have none of the key's rows.
      rw [filled] at answered
      have none := agrees _ rows (by rw [answer, filled]; exact answered)
      rw [← none] at mem
      split at answered
      · contradiction
      · rw [← some.inj answered] at mem
        exact absurd mem (Multiset.notMem_zero row)
  · rw [update_of_ne same] at answered ⊢
    exact agrees key rows answered

end

theorem insertRow_wellFormed (wf : single.WellFormed) (row : Row V) :
    (single.insertRow row).2.WellFormed :=
  (shape_insert single.isPartial).trans wf

theorem removeRow_wellFormed (wf : single.WellFormed) (row : Row V) :
    (single.removeRow row).2.WellFormed :=
  shape_remove.trans wf

/-! ## Filling and emptying keys -/

variable (single) in
/-- The index takes the key: it has the length of its columns, and a range is
non-empty and meant for a B-tree. -/
def Accepts : KeyComparison V → Prop
  | .equal key => key.length = single.columns.length
  | .range lower upper =>
    single.indexType = .bTreeMap ∧ boundFits single.columns.length lower = true ∧
      boundFits single.columns.length upper = true ∧ checkRange Key.cmp lower upper = .ok ⟨⟩

theorem contains_range (lower upper : Bound (Key V)) (key : Key V) :
    (KeyComparison.range lower upper).contains key = rangeContains Key.cmp lower upper key := by
  cases lower <;> cases upper <;> rfl

/-- Only the keyed state differs. -/
structure SameIndex (before after : SingleState V) : Prop where
  index : after.index = before.index
  isPartial : after.isPartial = before.isPartial
  shape : after.state.shape = before.state.shape

theorem SameIndex.wellFormed {before after : SingleState V} (same : SameIndex before after)
    (wf : before.WellFormed) : after.WellFormed := by
  rw [WellFormed, same.shape, indexType, columns, same.index]
  exact wf

theorem exists_bTree (wf : single.WellFormed) (isBTree : single.indexType = .bTreeMap) :
    ∃ map, single.state = .bTree single.columns.length map := by
  obtain ⟨kind, length⟩ := Prod.mk.inj wf
  cases isState : single.state with
  | bTree len map =>
    rw [isState] at length
    exact ⟨map, congrArg (bTree · map) length⟩
  | hash len map =>
    rw [isState, isBTree] at kind
    contradiction

theorem markPointFilled_spec (wf : single.WellFormed)
    (length : key.length = single.columns.length) (absent : single.state.stored key = none) :
    ∃ after, single.markPointFilled key = .ok after ∧ SameIndex single after ∧
      after.rowCount = single.rowCount ∧
      after.state.view = update single.state.view key (some 0) := by
  have keyLen : single.state.keyLen = single.columns.length := (Prod.mk.inj wf).2
  rw [markPointFilled, if_neg (by rw [length, keyLen]; simp)]
  cases isState : single.state with
  | bTree len map =>
    rw [isState, stored] at absent
    refine ⟨{ single with state := .bTree len (map.insert key 0).2 }, ?_,
      ⟨rfl, rfl, by rw [isState]; rfl⟩, rfl, view_bTree_insert 0⟩
    simp [PartialMap.insert, absent]
  | hash len map =>
    rw [isState, stored] at absent
    refine ⟨{ single with state := .hash len (map.insert key 0) }, ?_,
      ⟨rfl, rfl, by rw [isState]; rfl⟩, rfl, view_hash_insert 0⟩
    simp [absent]

theorem markFilled_range (wf : single.WellFormed) {lower upper : Bound (Key V)}
    (accepts : single.Accepts (.range lower upper)) :
    ∃ after, single.markFilled (.range lower upper) = .ok after ∧ SameIndex single after ∧
      after.rowCount = single.rowCount ∧ ∀ point, after.state.view point =
        if rangeContains Key.cmp lower upper point then some ((single.state.view point).getD 0)
        else single.state.view point := by
  obtain ⟨isBTree, lowerFits, upperFits, valid⟩ := accepts
  obtain ⟨map, isState⟩ := exists_bTree wf isBTree
  obtain ⟨filled, ok, shape, viewed⟩ := insertRange_spec map lowerFits upperFits valid
  refine ⟨{ single with state := filled }, ?_, ⟨rfl, rfl, ?_⟩, rfl, fun point => ?_⟩
  · simp [markFilled, isState, ok]
  · rw [shape, isState]
    rfl
  · rw [viewed, ← isState]

/-- A filled key or range is empty at first. -/
theorem markFilled_spec (wf : single.WellFormed) {key : KeyComparison V}
    (accepts : single.Accepts key)
    (unfilled : ∀ point, key.contains point = true → single.state.view point = none) :
    ∃ after, single.markFilled key = .ok after ∧ SameIndex single after ∧
      ∀ point, after.state.view point =
        if key.contains point then some 0 else single.state.view point := by
  cases key with
  | equal key =>
    obtain ⟨after, ok, same, _, viewed⟩ := markPointFilled_spec wf accepts
      (stored_eq_none (unfilled key (KeyComparison.contains_equal.mpr rfl)))
    refine ⟨after, ok, same, fun point => ?_⟩
    rw [viewed, update_apply]
    simp
  | range lower upper =>
    obtain ⟨after, ok, same, _, viewed⟩ := markFilled_range wf accepts
    refine ⟨after, ok, same, fun point => ?_⟩
    rw [contains_range, viewed]
    split
    case isTrue inside =>
      rw [unfilled point (by rw [contains_range]; exact inside)]
      rfl
    case isFalse => rfl

/-- The keys are holes, and what they held is gone. -/
structure Emptied (before : SingleState V) (gone : Key V → Prop) (after : SingleState V) : Prop
    extends SameIndex before after where
  hole : ∀ point, gone point → after.state.view point = none
  kept : ∀ point, ¬ gone point → after.state.view point = before.state.view point

/-- The distinct rows of some keys. -/
def IsRowsOf (before : SingleState V) (gone : Key V → Prop) (rows : Rows V) : Prop :=
  rows.Nodup ∧ ∀ row, row ∈ rows ↔
    ∃ point held, gone point ∧ before.state.view point = some held ∧ row ∈ held

section

variable (wf : single.WellFormed) {key : KeyComparison V} (accepts : single.Accepts key)

include wf accepts

/-- An evicted key or range is emptied, and its rows are returned. -/
theorem evictKey_spec :
    ∃ rows after, single.evictKey key = .ok (rows, after) ∧
      Emptied single (fun point => key.contains point = true) after ∧
      IsRowsOf single (fun point => key.contains point = true) rows := by
  have keyLen : single.state.keyLen = single.columns.length := (Prod.mk.inj wf).2
  cases key with
  | equal key =>
    obtain ⟨rows, rest, evicted, held, shape, viewed⟩ := evict_spec (Eq.trans accepts keyLen.symm)
    refine ⟨(rows.getD 0).dedup, { single with state := rest }, ?_, ⟨⟨rfl, rfl, shape⟩, ?_, ?_⟩,
      Multiset.nodup_dedup _, fun row => ?_⟩
    · simp [evictKey, evicted]
    · intro point gone
      rw [viewed, KeyComparison.contains_equal.mp gone, update_self]
    · intro point notGone
      rw [viewed, update_of_ne (mt KeyComparison.contains_equal.mpr notGone)]
    · rw [held]
      cases filled : single.state.view key <;> simp [filled]
  | range lower upper =>
    obtain ⟨isBTree, lowerFits, upperFits, valid⟩ := accepts
    obtain ⟨map, isState⟩ := exists_bTree wf isBTree
    obtain ⟨rest, evicted, shape, viewed⟩ := evictRange_spec map lowerFits upperFits valid
    refine ⟨(((map.map.retain (rangeContains Key.cmp lower upper)).entries.map
      fun entry => Multiset.dedup entry.2).sum).dedup, { single with state := rest }, ?_,
      ⟨⟨rfl, rfl, ?_⟩, ?_, ?_⟩, Multiset.nodup_dedup _, fun row => ?_⟩
    · simp [evictKey, isState, evicted]
    · rw [isState]
      exact shape
    · intro point gone
      rw [contains_range] at gone
      exact (viewed point).trans (if_pos gone)
    · intro point notGone
      rw [contains_range] at notGone
      rw [isState]
      exact (viewed point).trans (if_neg notGone)
    · rw [Multiset.mem_dedup, mem_list_sum]
      simp only [contains_range]
      constructor
      · rintro ⟨bag, mem, inBag⟩
        obtain ⟨entry, kept, rfl⟩ := List.mem_map.mp mem
        obtain ⟨stored, inside⟩ := List.mem_filter.mp kept
        refine ⟨entry.1, entry.2, inside, ?_, Multiset.mem_dedup.mp inBag⟩
        rw [isState, view, PartialMap.get_eq, BTreeMap.get?_eq_some.mpr stored, some_or]
      · rintro ⟨point, held, inside, filled, inHeld⟩
        rw [isState] at filled
        have stored := get?_of_view filled inHeld
        refine ⟨held.dedup, List.mem_map.mpr ⟨(point, held), ?_, rfl⟩,
          Multiset.mem_dedup.mpr inHeld⟩
        exact List.mem_filter.mpr ⟨BTreeMap.get?_eq_some.mp stored, inside⟩

theorem markHole_spec :
    ∃ after, single.markHole key = .ok after ∧
      Emptied single (fun point => key.contains point = true) after := by
  obtain ⟨rows, after, evicted, emptied, _⟩ := evictKey_spec wf accepts
  refine ⟨after, ?_, emptied⟩
  cases key with
  | equal key =>
    simp only [evictKey, markHole, bind, Except.bind] at evicted ⊢
    split at evicted
    · contradiction
    · simpa using (ok_pair_inj evicted).2
  | range lower upper =>
    obtain ⟨map, isState⟩ := exists_bTree wf accepts.1
    simp only [evictKey, markHole, isState, bind, Except.bind] at evicted ⊢
    split at evicted
    · contradiction
    · simpa using (ok_pair_inj evicted).2

end

/-- Every row stands under its own key. -/
def Keyed (single : SingleState V) : Prop :=
  ∀ point held, single.state.view point = some held →
    ∀ row ∈ held, row.clonedIndices single.columns = point

section

variable {before middle after : SingleState V} {gone goneFirst goneThen : Key V → Prop}

theorem Emptied.filled (emptied : Emptied before gone after) {point : Key V} {held : Rows V}
    (filled : after.state.view point = some held) :
    ¬ gone point ∧ before.state.view point = some held := by
  by_cases isGone : gone point
  · rw [emptied.hole point isGone] at filled
    contradiction
  · rw [emptied.kept point isGone] at filled
    exact ⟨isGone, filled⟩

theorem Emptied.accepts (emptied : Emptied before gone after) {key : KeyComparison V}
    (accepts : before.Accepts key) : after.Accepts key := by
  cases key <;> simpa only [Accepts, columns, indexType, emptied.index] using accepts

theorem Emptied.trans (early : Emptied before goneFirst middle)
    (late : Emptied middle goneThen after) :
    Emptied before (fun point => goneFirst point ∨ goneThen point) after where
  index := late.index.trans early.index
  isPartial := late.isPartial.trans early.isPartial
  shape := late.shape.trans early.shape
  hole point isGone := by
    by_cases goneLater : goneThen point
    · exact late.hole point goneLater
    · rw [late.kept point goneLater]
      exact early.hole point (isGone.resolve_right goneLater)
  kept point notGone := by
    rw [late.kept point fun goneLater => notGone (.inr goneLater)]
    exact early.kept point fun goneEarly => notGone (.inl goneEarly)

/-- Rows evicted in two rounds are those of both. -/
theorem IsRowsOf.add {first second : Rows V} (keyed : before.Keyed)
    (emptied : Emptied before goneFirst middle) (early : IsRowsOf before goneFirst first)
    (late : IsRowsOf middle goneThen second) :
    IsRowsOf before (fun point => goneFirst point ∨ goneThen point) (first + second) := by
  constructor
  · rw [Multiset.nodup_add]
    refine ⟨early.1, late.1, Multiset.disjoint_left.mpr ?_⟩
    intro row inFirst inSecond
    -- Both would be under the row's key, which the first eviction emptied.
    obtain ⟨point, held, isGone, filled, mem⟩ := (early.2 row).mp inFirst
    obtain ⟨other, otherHeld, _, otherFilled, otherMember⟩ := (late.2 row).mp inSecond
    obtain ⟨notGone, stillFilled⟩ := emptied.filled otherFilled
    have same : point = other :=
      (keyed point held filled row mem).symm.trans
        (keyed other otherHeld stillFilled row otherMember)
    exact notGone (same ▸ isGone)
  · intro row
    rw [Multiset.mem_add, early.2, late.2]
    constructor
    · rintro (⟨point, held, isGone, filled, mem⟩ | ⟨point, held, isGone, filled, mem⟩)
      · exact ⟨point, held, .inl isGone, filled, mem⟩
      · exact ⟨point, held, .inr isGone, (emptied.filled filled).2, mem⟩
    · rintro ⟨point, held, isGone, filled, mem⟩
      by_cases goneEarly : goneFirst point
      · exact .inl ⟨point, held, goneEarly, filled, mem⟩
      · refine .inr ⟨point, held, isGone.resolve_left goneEarly, ?_, mem⟩
        rw [emptied.kept point goneEarly]
        exact filled

end

/-- The keys of `evict_keys` become holes, and their rows are handed out. -/
theorem evictKeys_spec (wf : single.WellFormed) (keyed : single.Keyed)
    {keys : List (KeyComparison V)} (accepts : ∀ key ∈ keys, single.Accepts key) :
    ∃ rows after, single.evictKeys keys = .ok (rows, after) ∧
      Emptied single (fun point => ∃ key ∈ keys, key.contains point = true) after ∧
      IsRowsOf single (fun point => ∃ key ∈ keys, key.contains point = true) rows := by
  have start :
      Emptied single (fun point => ∃ key ∈ ([] : List (KeyComparison V)),
        key.contains point = true) single ∧
      IsRowsOf single (fun point => ∃ key ∈ ([] : List (KeyComparison V)),
        key.contains point = true) 0 :=
    ⟨⟨⟨rfl, rfl, rfl⟩, fun _ gone => by simp at gone, fun _ _ => rfl⟩,
      Multiset.nodup_zero, fun row => by simp⟩
  -- The invariant is the statement for the keys worked off so far.
  obtain ⟨⟨rows, after⟩, folded, emptied, isRows⟩ := foldlM_invariant
    (fun (state : Rows V × SingleState V) key => do
      let (rows, single) ← state.2.evictKey key
      return (state.1 + rows, single))
    (fun done state =>
      Emptied single (fun point => ∃ key ∈ done, key.contains point = true) state.2 ∧
      IsRowsOf single (fun point => ∃ key ∈ done, key.contains point = true) state.1)
    keys
    (by
      rintro done key rest ⟨rows, middle⟩ whole ⟨emptied, isRows⟩
      have accepted : single.Accepts key := accepts key (by simp [whole])
      obtain ⟨more, after, evicted, emptiedThen, moreRows⟩ :=
        evictKey_spec (emptied.wellFormed wf) (emptied.accepts accepted)
      have both : (fun point => ∃ other ∈ done ++ [key], other.contains point = true) =
          fun point => (∃ other ∈ done, other.contains point = true) ∨
            key.contains point = true := by
        simp
      refine ⟨(rows + more, after), ?_, ?_, ?_⟩
      · simp [evicted]
      · rw [both]
        exact emptied.trans emptiedThen
      · rw [both]
        exact isRows.add keyed emptied moreRows)
    (show _ ∧ IsRowsOf single _ ((0, single) : Rows V × SingleState V).1 from start)
  exact ⟨rows, after, folded, emptied, isRows⟩

theorem evictRandom_spec (seed : Nat) :
    (∃ key rows after, single.evictRandom seed = (some (key, rows), after) ∧
      single.state.atSeed seed = some key ∧ after.rowCount = single.rowCount - 1 ∧
      Emptied single (fun point => point = key) after) ∨
    single.evictRandom seed = (none, single) ∧ single.state.atSeed seed = none := by
  rcases single.state.evictWithSeed_spec seed with
    ⟨rows, key, rest, evicted, picked, _, shape, viewed⟩ | ⟨nothing, none⟩
  · refine .inl ⟨key, rows, { single with state := rest, rowCount := single.rowCount - 1 }, ?_,
      picked, rfl, ⟨rfl, rfl, shape⟩, ?_, ?_⟩
    · rw [evictRandom, evicted]
    · rintro point rfl
      rw [viewed, update_self]
    · intro point ne
      rw [viewed, update_of_ne ne]
  · refine .inr ⟨?_, none⟩
    rw [evictRandom, nothing]

theorem Emptied.agrees {after : SingleState V} {gone : Key V → Prop}
    (emptied : Emptied single gone after) (isPartial : single.isPartial = true)
    (agrees : single.Agrees contents) : after.Agrees contents := by
  intro key rows answered
  rw [answer_eq_view (emptied.isPartial.trans isPartial)] at answered
  exact agrees key rows (answer_of_view (emptied.filled answered).2)

/-! ## The rows of an index -/

/-- The filled keys together hold the rows of a table, each under its key. -/
def Stores (single : SingleState V) (table : Rows V) : Prop :=
  ∀ key, (single.state.view key).getD 0 = matching table single.columns key

section

variable {table : Rows V} (stores : single.Stores table)

include stores

theorem Stores.keyed : single.Keyed := by
  intro point held filled row mem
  have whole := stores point
  rw [filled, getD_some] at whole
  rw [whole] at mem
  exact (Multiset.mem_filter.mp mem).2

theorem Stores.filled (mem : row ∈ table) :
    ∃ held, single.state.view (row.clonedIndices single.columns) = some held ∧ row ∈ held := by
  have whole := stores (row.clonedIndices single.columns)
  have inPart : row ∈ matching table single.columns (row.clonedIndices single.columns) :=
    Multiset.mem_filter.mpr ⟨mem, rfl⟩
  rw [← whole] at inPart
  cases filled : single.state.view (row.clonedIndices single.columns) with
  | some held => exact ⟨held, rfl, by rwa [filled] at inPart⟩
  | none => simp [filled] at inPart

theorem Stores.sum_values : single.values.sum = table := by
  have parts : single.values =
      single.state.keys.map (part (fun row => row.clonedIndices single.columns) table) := by
    rw [values, KeyedState.values_eq]
    exact List.map_congr_left fun key _ => stores key
  rw [parts]
  apply sum_parts single.state.keys_nodup
  intro row mem
  obtain ⟨held, view, inHeld⟩ := stores.filled mem
  exact KeyedState.mem_keys_of_view view inHeld

end

/-! ## New indices -/

theorem new_spec (index : Index) (isPartial : Bool) :
    ∃ single : SingleState V, new index isPartial = .ok single ∧ single.index = index ∧
      single.isPartial = isPartial ∧ single.WellFormed ∧
      ∀ key, single.answer key = if isPartial then none else some 0 := by
  by_cases covers : isPartial = false ∧ index.indexType = .bTreeMap
  · obtain ⟨rfl, isBTree⟩ := covers
    have fresh : (ofIndex index : KeyedState V) = .bTree index.columns.length {} := by
      rw [ofIndex, isBTree]
    obtain ⟨filled, ok, shape, viewed⟩ := @insertRange_spec V _
      index.columns.length {} .unbounded .unbounded rfl rfl rfl
    refine ⟨{ index, state := filled, isPartial := false }, ?_, rfl, rfl, ?_, fun key => ?_⟩
    · simp [new, fresh, isBTree, ok]
    · exact shape.trans (by rw [indexType, isBTree]; rfl)
    · rw [answer, viewed]
      rfl
  · refine ⟨{ index, state := .ofIndex index, isPartial }, ?_, rfl, rfl,
      shape_ofIndex index, fun key => ?_⟩
    · simp [new, if_neg covers]
    · rw [answer, view_ofIndex, none_or]

end SingleState

end ReadySet.DataflowState
