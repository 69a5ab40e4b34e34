import ReadySet.DataflowState.SingleState

/-!
Owns the row counter of one index (`SingleState::row_count`) over whole runs.
The rows of the index are a bag, and each call does one thing to it; the
counter follows inserts and removals, but holes and evictions take the rows of
whole keys while the counter stays or falls by one.
-/

namespace ReadySet.DataflowState.SingleState

open Data Library Dataflow KeyedState Function

universe u

variable {V : Type u} [LinearOrder V]

/-! ## Calls -/

/-- The calls that change an index. -/
inductive Call (V : Type u) [LinearOrder V] where
  | insertRow (row : Row V)
  | removeRow (row : Row V)
  | markFilled (key : KeyComparison V)
  | markHole (key : KeyComparison V)
  | evictRandom (seed : Nat)
  | evictKeys (keys : List (KeyComparison V))
  | clear

section

variable (single : SingleState V)

def clear : SingleState V := { single with state := single.state.clear, rowCount := 0 }

def isEmpty : Bool := single.rowCount == 0

def call : Call V → ReadySetResult (PUnit.{u + 1} × SingleState V)
  | .insertRow row => .ok (⟨⟩, (single.insertRow row).2)
  | .removeRow row => .ok (⟨⟩, (single.removeRow row).2)
  | .markFilled key => (single.markFilled key).map (⟨⟩, ·)
  | .markHole key => (single.markHole key).map (⟨⟩, ·)
  | .evictRandom seed => .ok (⟨⟩, (single.evictRandom seed).2)
  | .evictKeys keys => (single.evictKeys keys).map fun evicted => (⟨⟩, evicted.2)
  | .clear => .ok (⟨⟩, single.clear)

/-- The rows that the index stores. -/
def rows : Rows V := single.values.sum

/-- The index takes the keys, a point that is marked filled has no bag yet, and
a row that is removed is there. -/
def Takes : Call V → Prop
  | .removeRow row => row ∈ single.rows
  | .markFilled key => single.Accepts key ∧
      ∀ point, key = .equal point → single.state.stored point = none
  | .markHole key => single.Accepts key
  | .evictKeys keys => ∀ key ∈ keys, single.Accepts key
  | _ => True

/-- **The counter can follow the call**: a hole or an eviction meets keys
without rows, and a random eviction a key with one row, if there are rows at
all. -/
def Follows : Call V → Prop
  | .markHole key => ∀ row ∈ single.rows, key.contains (row.clonedIndices single.columns) = false
  | .evictKeys keys => ∀ row ∈ single.rows, ∀ key ∈ keys,
      key.contains (row.clonedIndices single.columns) = false
  | .evictRandom seed => ∀ key, single.state.atSeed seed = some key →
      (matching single.rows single.columns key).card = min 1 single.rows.card
  | _ => True

end

/-! ## What the calls do to the rows -/

variable {single after : SingleState V} {table : Rows V} {row : Row V} {key : KeyComparison V}
  {gone : Key V → Prop} {evicted : Rows V}

/-- The count follows the rows when one is inserted. -/
theorem insertRow_stores (stores : single.Stores table) (row : Row V) :
    ∃ next, (single.insertRow row).2.Stores next ∧
      (single.rowCount = table.card → (single.insertRow row).2.rowCount = next.card) := by
  obtain ⟨hit, viewed⟩ := @insert_spec V _ single.state single.columns row single.isPartial
  cases added : (single.state.insert single.columns row single.isPartial).1 with
  | true =>
    rw [if_pos (hit ▸ added)] at viewed
    refine ⟨row ::ₘ table, fun key => ?_, fun right => ?_⟩
    · change ((single.state.insert single.columns row single.isPartial).2.view key).getD 0 =
        matching (row ::ₘ table) single.columns key
      rw [viewed, matching_cons, update_apply, update_apply]
      split
      · rw [Option.getD_some, stores]
      · exact stores key
    · simp [insertRow, added, right]
  | false =>
    rw [if_neg (by rw [← hit, added]; simp)] at viewed
    refine ⟨table, fun key => ?_, fun right => ?_⟩
    · change ((single.state.insert single.columns row single.isPartial).2.view key).getD 0 =
        matching table single.columns key
      rw [viewed]
      exact stores key
    · simp [insertRow, added, right]

theorem removeRow_stores (stores : single.Stores table) (mem : row ∈ table) :
    (single.removeRow row).2.Stores (table.erase row) ∧
      (single.removeRow row).2.rowCount = single.rowCount - 1 := by
  obtain ⟨held, filled, inHeld⟩ := stores.filled mem
  constructor
  · intro key
    change ((single.state.remove single.columns row).state.view key).getD 0 =
      matching (table.erase row) single.columns key
    rw [remove_spec.2, matching_erase, update_apply, update_apply]
    split
    · rw [← stores, filled, Option.map_some, doRemove_of_mem inHeld]
      rfl
    · exact stores key
  · rw [removeRow, if_pos (removed_isSome filled inHeld)]

theorem markFilled_stores (wf : single.WellFormed)
    (takes : single.Takes (.markFilled key)) (stores : single.Stores table) :
    ∃ after, single.markFilled key = .ok after ∧ after.WellFormed ∧ after.Stores table ∧
      after.rowCount = single.rowCount := by
  obtain ⟨accepts, absent⟩ := takes
  cases key with
  | equal key =>
    obtain ⟨after, ok, same, count, viewed⟩ := markPointFilled_spec wf accepts (absent key rfl)
    refine ⟨after, ok, same.wellFormed wf, fun point => ?_, count⟩
    rw [viewed, columns, same.index, update_apply]
    split
    case isTrue isKey =>
      have empty := getD_view single.state key
      rw [absent key rfl] at empty
      rw [isKey, ← columns, ← stores, empty]
      rfl
    case isFalse => exact stores point
  | range lower upper =>
    obtain ⟨after, ok, same, count, viewed⟩ := markFilled_range wf accepts
    refine ⟨after, ok, same.wellFormed wf, fun point => ?_, count⟩
    rw [columns, same.index]
    refine Eq.trans ?_ (stores point)
    rw [viewed]
    split <;> rfl

theorem Emptied.stores [DecidablePred gone]
    (emptied : Emptied single gone after) (stores : single.Stores table) :
    after.Stores (table.filter fun row => ¬ gone (row.clonedIndices single.columns)) := by
  intro point
  rw [show after.columns = single.columns from congrArg Index.columns emptied.index, matching,
    Multiset.filter_filter]
  by_cases isGone : gone point
  · rw [emptied.hole point isGone, Multiset.filter_eq_nil.mpr]
    · rfl
    · rintro row _ ⟨rfl, kept⟩
      exact kept isGone
  · rw [emptied.kept point isGone, stores]
    apply Multiset.filter_congr
    rintro row _
    constructor
    · rintro rfl
      exact ⟨rfl, isGone⟩
    · exact And.left

theorem markHole_rowCount (marked : single.markHole key = .ok after) :
    after.rowCount = single.rowCount := by
  cases key with
  | equal key =>
    obtain ⟨evicted, _, ok⟩ := bind_eq_ok.mp marked
    rw [← Except.ok.inj ok]
  | range lower upper =>
    rw [markHole] at marked
    split at marked
    · obtain ⟨evicted, _, ok⟩ := bind_eq_ok.mp marked
      rw [← Except.ok.inj ok]
    · contradiction

theorem evictKey_rowCount
    (ok : single.evictKey key = .ok (evicted, after)) : after.rowCount = single.rowCount := by
  cases key with
  | equal key | range lower upper =>
    obtain ⟨taken, _, same⟩ := bind_eq_ok.mp ok
    rw [← (ok_pair_inj same).2]

theorem evictKeys_rowCount {keys : List (KeyComparison V)}
    (ok : single.evictKeys keys = .ok (evicted, after)) : after.rowCount = single.rowCount := by
  refine foldlM_ok_invariant _ (fun _ state => state.2.rowCount = single.rowCount) keys ?_ rfl ok
  intro _ key _ state next _ same stepped
  obtain ⟨taken, evicted, added⟩ := bind_eq_ok.mp stepped
  rw [← Except.ok.inj added, ← same]
  exact evictKey_rowCount evicted

/-! ## Runs -/

/-- A counter that stays while keys are emptied is right if they had no rows. -/
theorem Emptied.count_iff [DecidablePred gone]
    (emptied : Emptied single gone after) (stores : single.Stores table)
    (right : single.rowCount = table.card) (same : after.rowCount = single.rowCount) :
    ∃ next, after.Stores next ∧ (after.rowCount = next.card ↔
      ∀ row ∈ table, ¬ gone (row.clonedIndices single.columns)) := by
  refine ⟨_, emptied.stores stores, ?_⟩
  rw [same, right, ← Multiset.filter_eq_self]
  constructor
  · intro all
    exact Multiset.eq_of_le_of_card_le (Multiset.filter_le _ table) all.le
  · intro all
    rw [all]

/-- One call: the rows stand under their keys again, and a right counter stays
right exactly if it can follow. -/
theorem call_spec (wf : single.WellFormed) (stores : single.Stores single.rows)
    (right : single.rowCount = single.rows.card) {op : Call V} (takes : single.Takes op) :
    ∃ next, single.call op = .ok (⟨⟩, next) ∧ next.WellFormed ∧ next.Stores next.rows ∧
      (next.rowCount = next.rows.card ↔ single.Follows op) := by
  suffices effect : ∃ next table, single.call op = .ok (⟨⟩, next) ∧ next.WellFormed ∧
      next.Stores table ∧ (next.rowCount = table.card ↔ single.Follows op) by
    obtain ⟨next, table, called, wfNext, storesNext, count⟩ := effect
    have rows : next.rows = table := storesNext.sum_values
    exact ⟨next, called, wfNext, rows ▸ storesNext, rows ▸ count⟩
  cases op with
  | insertRow row =>
    obtain ⟨table, storesNext, count⟩ := insertRow_stores stores row
    exact ⟨_, table, rfl, insertRow_wellFormed wf row, storesNext,
      iff_of_true (count right) trivial⟩
  | removeRow row =>
    obtain ⟨storesNext, count⟩ := removeRow_stores stores takes
    refine ⟨_, _, rfl, removeRow_wellFormed wf row, storesNext, iff_of_true ?_ trivial⟩
    rw [count, right, Multiset.card_erase_of_mem takes]
    rfl
  | markFilled key =>
    obtain ⟨next, filled, wfNext, storesNext, count⟩ := markFilled_stores wf takes stores
    refine ⟨next, _, ?_, wfNext, storesNext, iff_of_true (count.trans right) trivial⟩
    simp [call, filled, Except.map]
  | markHole key =>
    obtain ⟨next, marked, emptied⟩ := markHole_spec wf takes
    obtain ⟨table, storesNext, count⟩ := emptied.count_iff stores right (markHole_rowCount marked)
    refine ⟨next, table, ?_, emptied.wellFormed wf, storesNext, ?_⟩
    · simp [call, marked, Except.map]
    · simpa [Follows] using count
  | evictKeys keys =>
    obtain ⟨rows, next, evicted, emptied, _⟩ := evictKeys_spec wf stores.keyed takes
    obtain ⟨table, storesNext, count⟩ := emptied.count_iff stores right (evictKeys_rowCount evicted)
    refine ⟨next, table, ?_, emptied.wellFormed wf, storesNext, ?_⟩
    · simp [call, evicted, Except.map]
    · simpa [Follows] using count
  | evictRandom seed =>
    rcases single.evictRandom_spec seed with
      ⟨key, rows, next, evicted, picked, count, emptied⟩ | ⟨nothing, unpicked⟩
    · refine ⟨next, _, by rw [call, evicted], emptied.wellFormed wf, emptied.stores stores, ?_⟩
      -- The rows are those of the key and those that stay.
      have parts := congrArg Multiset.card (Multiset.filter_add_not
        (fun row : Row V => row.clonedIndices single.columns = key) single.rows)
      rw [Multiset.card_add] at parts
      simp only [Follows, picked, Option.some.injEq, forall_eq', matching]
      omega
    · refine ⟨single, single.rows, by rw [call, nothing], wf, stores, iff_of_true right ?_⟩
      intro key picked
      rw [unpicked] at picked
      contradiction
  | clear =>
    refine ⟨_, 0, rfl, ?_, fun key => ?_, iff_of_true rfl trivial⟩
    · refine Eq.trans ?_ wf
      simp only [clear]
      cases single.state <;> rfl
    · simp only [clear]
      cases single.state <;> rfl

/-- A new index counts the rows that it stores. -/
theorem new_stores {index : Index} {isPartial : Bool} (created : new index isPartial = .ok single) :
    single.WellFormed ∧ single.Stores single.rows ∧ single.rowCount = single.rows.card := by
  obtain ⟨other, again, _, isPartialAs, wf, answers⟩ := @new_spec V _ index isPartial
  obtain rfl := Except.ok.inj (created.symm.trans again)
  have stores : single.Stores 0 := by
    intro key
    have answered := answers key
    rw [answer] at answered
    cases view : single.state.view key with
    | none => rfl
    | some rows =>
      rw [view, Option.some_or] at answered
      split at answered
      · contradiction
      · rw [Option.some.inj answered]
        rfl
  have count : single.rowCount = 0 := by
    rw [new] at created
    split at created <;>
    · obtain ⟨state, _, same⟩ := bind_eq_ok.mp created
      rw [← Except.ok.inj same]
  have rows : single.rows = 0 := stores.sum_values
  rw [rows]
  exact ⟨wf, stores, count⟩

/-- **The counter is the number of rows after every run whose calls it can
follow**, an index is then empty exactly if it stores no row, and the next call
keeps the counter right only if it can be followed too. -/
theorem run_rowCount_iff {index : Index} {isPartial : Bool} {start : SingleState V}
    (created : new index isPartial = .ok start) {calls : List (Call V)}
    (along : Along call (fun single op => single.Takes op ∧ single.Follows op) start calls) :
    ∃ trace final, run call start calls = .ok (trace, final) ∧
      final.rowCount = final.rows.card ∧ (final.isEmpty = true ↔ final.rows = 0) ∧
      ∀ op, final.Takes op → ∃ next, final.call op = .ok (⟨⟩, next) ∧
        (next.rowCount = next.rows.card ↔ final.Follows op) := by
  obtain ⟨trace, final, ran, wf, stores, right⟩ := run_along call
    (fun single => single.WellFormed ∧ single.Stores single.rows ∧
      single.rowCount = single.rows.card)
    (by
      rintro single op ⟨wf, stores, right⟩ ⟨takes, follows⟩
      obtain ⟨next, called, wfNext, storesNext, count⟩ := call_spec wf stores right takes
      exact ⟨⟨⟩, next, called, wfNext, storesNext, count.mpr follows⟩)
    (new_stores created) along
  refine ⟨trace, final, ran, right, ?_, fun op takes => ?_⟩
  · rw [isEmpty, beq_iff_eq, right, Multiset.card_eq_zero]
  · obtain ⟨next, called, _, _, count⟩ := call_spec wf stores right takes
    exact ⟨next, called, count⟩

/-- A partial index on the first column. -/
def onFirst : SingleState Nat := { index := ⟨.hashMap, [0]⟩, state := .hash 1 ∅, isPartial := true }

/-- Two equal rows of one key: the eviction takes both and leaves the counter. -/
theorem evictKeys_leaves_count :
    ∃ trace final, new ⟨.hashMap, [0]⟩ true = .ok onFirst ∧
      run call onFirst [.markFilled (.equal [.value 7]), .insertRow [.value 7],
        .insertRow [.value 7], .evictKeys [.equal [.value 7]]] = .ok (trace, final) ∧
      final.rowCount = 2 ∧ final.isEmpty = false ∧ final.rows = 0 :=
  ⟨_, _, rfl, rfl, rfl, rfl, rfl⟩

theorem evictRandom_of_single_counted :
    ∃ trace final, run call onFirst [.markFilled (.equal [.value 7]), .insertRow [.value 7],
        .evictRandom 0] = .ok (trace, final) ∧ final.rowCount = final.rows.card := by
  obtain ⟨trace, final, ran, right, _⟩ := @run_rowCount_iff Nat _ ⟨.hashMap, [0]⟩ true onFirst rfl
    [.markFilled (.equal [.value 7]), .insertRow [.value 7], .evictRandom 0]
    (along_cons _ ⟨⟨rfl, by rintro _ ⟨⟩; rfl⟩, trivial⟩ rfl
      (along_cons _ ⟨trivial, trivial⟩ rfl
        (along_cons _ ⟨trivial, by rintro _ ⟨⟩; rfl⟩ rfl trivial)))
  exact ⟨trace, final, ran, right⟩

end ReadySet.DataflowState.SingleState
