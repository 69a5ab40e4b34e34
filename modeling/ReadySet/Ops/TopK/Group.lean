import ReadySet.Library.Selection
import ReadySet.Ops.TopK.Operator

/-!
Owns what the top-k operator does to one group: the rows it tracks over the
group's records, whatever the heap's internal order, and the rows it settles
on when the group is finished.

`tracked` is the heap as a multiset of rows. `Outcome` says what the group's
rows are after the emitted records have been applied.
-/

namespace ReadySet.Ops

open Data Library Dataflow List

universe u

variable {V : Type u} [LinearOrder V]

/-! ## Rows held in the heap -/

def rowsOf (current : List (CurrentRecord V)) : Multiset (Row V) :=
  (current : Multiset (CurrentRecord V)).map CurrentRecord.row

/-- The rows of the heap that were there before the batch. -/
def oldRows (current : List (CurrentRecord V)) : Multiset (Row V) :=
  ((current : Multiset (CurrentRecord V)).filter fun record => record.isNew = false).map
    CurrentRecord.row

section

omit [LinearOrder V]

section

variable {left right : List (CurrentRecord V)} (perm : left.Perm right)

include perm

theorem rowsOf_perm : rowsOf left = rowsOf right := by
  unfold rowsOf
  rw [Multiset.coe_eq_coe.mpr perm]

theorem oldRows_perm : oldRows left = oldRows right := by
  unfold oldRows
  rw [Multiset.coe_eq_coe.mpr perm]

end

@[simp] theorem rowsOf_cons (record : CurrentRecord V) (cur : List (CurrentRecord V)) :
    rowsOf (record :: cur) = record.row ::ₘ rowsOf cur := by
  simp [rowsOf]

@[simp] theorem rowsOf_append (left right : List (CurrentRecord V)) :
    rowsOf (left ++ right) = rowsOf left + rowsOf right := by
  simp [rowsOf]

@[simp] theorem oldRows_append (left right : List (CurrentRecord V)) :
    oldRows (left ++ right) = oldRows left + oldRows right := by
  simp [oldRows]

@[simp] theorem card_rowsOf (cur : List (CurrentRecord V)) : (rowsOf cur).card = cur.length := by
  simp [rowsOf]

section

variable (row : Row V) (cur : List (CurrentRecord V))

theorem oldRows_cons_new : oldRows ({ row, isNew := true } :: cur) = oldRows cur := by
  simp [oldRows]

theorem oldRows_cons_old : oldRows ({ row, isNew := false } :: cur) = row ::ₘ oldRows cur := by
  simp [oldRows]

end

section

variable (rows : List (Row V))

theorem rowsOf_map (isNew : Bool) : rowsOf (rows.map fun row => { row, isNew }) = rows := by
  simp [rowsOf, Function.comp_def]

theorem oldRows_map_old : oldRows (rows.map fun row => { row, isNew := false }) = rows := by
  induction rows with
  | nil => rfl
  | cons row rows ih =>
    rw [map_cons, oldRows_cons_old, ih, Multiset.cons_coe]

theorem oldRows_map_new : oldRows (rows.map fun row => { row, isNew := true }) = 0 := by
  induction rows with
  | nil => rfl
  | cons row rows ih =>
    rw [map_cons, oldRows_cons_new, ih]

end

end

/-! ## The rows tracked over the records of a group -/

namespace TopK

variable (topk : TopK) (containers : Containers V topk.order) {order : Order}
  {cur : List (CurrentRecord V)}

/-- One record on the tracked rows: a row below all tracked rows of a group
that was full before the batch is not considered. -/
def trackOne (full : Bool) (held : Multiset (Row V)) : Record V → Multiset (Row V)
  | .positive row =>
    if full = true ∧ held ≠ 0 ∧ ∀ tracked ∈ held, ¬ topk.order.le tracked row then held
    else row ::ₘ held
  | .negative row => held.erase row

/-- **The rows the operator tracks** after the records of a group. -/
def tracked (full : Bool) (held : Multiset (Row V)) (records : List (Record V)) :
    Multiset (Row V) :=
  records.foldl (topk.trackOne full) held

/-- A record is skipped that sorts behind a full group. -/
theorem skips_iff (originalGroupLen : Nat) (cur : List (CurrentRecord V)) (row : Row V) :
    topk.skips containers originalGroupLen cur row = true ↔
      topk.k ≤ originalGroupLen ∧ rowsOf cur ≠ 0 ∧
        ∀ tracked ∈ rowsOf cur, ¬ topk.order.le tracked row := by
  have notLe : ∀ left right : Row V,
      ¬ topk.order.le left right ↔ topk.order.cmp left right = .gt := by
    intro left right
    unfold Order.le
    cases topk.order.cmp left right <;> simp
  unfold skips
  cases peeked : containers.heap.peek cur with
  | none =>
    obtain rfl := containers.heap.peek_eq_none cur peeked
    simp [rowsOf]
  | some least =>
    obtain ⟨mem, lowest⟩ := containers.heap.peek_greatest cur least peeked
    have mem : least.row ∈ rowsOf cur := Multiset.mem_map_of_mem _ (Multiset.mem_coe.mpr mem)
    simp only [Bool.and_eq_true, decide_eq_true_eq, beq_iff_eq, ← notLe]
    refine and_congr_right fun _ => ⟨fun below => ⟨?_, ?_⟩, fun all => all.2 _ mem⟩
    · exact fun empty => by simp [empty] at mem
    · intro tracked memberTracked reaches
      obtain ⟨other, memberOther, rfl⟩ := Multiset.mem_map.mp memberTracked
      have above : topk.order.le least.row other.row := by
        have isLE := lowest other (Multiset.mem_coe.mp memberOther)
        unfold CurrentRecord.cmp at isLE
        rw [← topk.order.cmp_swap] at isLE
        exact isLE
      exact below (IsTrans.trans _ _ _ above reaches)

omit [LinearOrder V] in
theorem find?_perm {row : Row V} [DecidableEq (Row V)]
    {found : CurrentRecord V} (first : cur.find? (·.row = row) = some found) :
    found.row = row ∧ cur.Perm (found :: cur.eraseP (·.row = row)) := by
  have isRow : found.row = row := by simpa using find?_some first
  refine ⟨isRow, ?_⟩
  induction cur with
  | nil => simp at first
  | cons head tail ih =>
    by_cases here : head.row = row
    · obtain rfl : head = found := by simpa [here] using first
      simp [here]
    · rw [find?_cons_of_neg (by simpa using here)] at first
      rw [eraseP_cons_of_neg (by simpa using here)]
      exact ((ih first).cons head).trans (List.Perm.swap _ _ _)

/-- The records of a group, one after the other. -/
def onRecords (originalGroupLen : Nat) :
    List (CurrentRecord V) → List (Record V) → List (CurrentRecord V) × List (Record V)
  | current, [] => (current, [])
  | current, record :: records =>
    let first := topk.onRecord containers originalGroupLen current record
    let later := onRecords originalGroupLen first.1 records
    (later.1, first.2 ++ later.2)

section

variable (originalGroupLen : Nat) (cur : List (CurrentRecord V))

/-- **One record**: the heap holds the tracked rows, and the emitted records
take the old rows from what they were to what they are. -/
theorem onRecord_spec (record : Record V) :
    rowsOf (topk.onRecord containers originalGroupLen cur record).1 =
        topk.trackOne (decide (topk.k ≤ originalGroupLen)) (rowsOf cur) record ∧
      applyAll (oldRows cur) (topk.onRecord containers originalGroupLen cur record).2 =
        some (oldRows (topk.onRecord containers originalGroupLen cur record).1) := by
  cases record with
  | positive row =>
    by_cases skipped : topk.skips containers originalGroupLen cur row = true
    · have below := (topk.skips_iff containers originalGroupLen cur row).mp skipped
      simp only [onRecord, skipped, trackOne, decide_eq_true_eq, if_pos below]
      exact ⟨rfl, rfl⟩
    · have kept := mt (topk.skips_iff containers originalGroupLen cur row).mpr skipped
      have pushed := containers.heap.push_perm cur { row, isNew := true }
      simp only [onRecord, skipped, trackOne, decide_eq_true_eq, if_neg kept]
      refine ⟨?_, ?_⟩
      · simpa using rowsOf_perm pushed
      · simpa [oldRows_cons_new] using (oldRows_perm pushed).symm
  | negative row =>
    cases first : cur.find? (·.row = row) with
    | none =>
      have absent : row ∉ rowsOf cur := by
        intro mem
        obtain ⟨other, mem, same⟩ := Multiset.mem_map.mp mem
        have missing := find?_eq_none.mp first other (Multiset.mem_coe.mp mem)
        simp [same] at missing
      simp [onRecord, first, trackOne, Multiset.erase_of_notMem absent]
    | some found =>
      obtain ⟨isRow, perm⟩ := find?_perm first
      have retained := containers.heap.retain_perm cur (cur.eraseP (·.row = row))
      simp only [onRecord, first, trackOne]
      refine ⟨?_, ?_⟩
      · rw [rowsOf_perm retained, rowsOf_perm perm, rowsOf_cons, isRow, Multiset.erase_cons_head]
      · obtain ⟨foundRow, isNew⟩ := found
        obtain rfl : foundRow = row := isRow
        rw [oldRows_perm retained, oldRows_perm perm]
        cases isNew with
        | true => simp [oldRows_cons_new]
        | false => simp [oldRows_cons_old, applyAll, applyOne]

theorem onRecords_spec (records : List (Record V)) :
    rowsOf (topk.onRecords containers originalGroupLen cur records).1 =
        topk.tracked (decide (topk.k ≤ originalGroupLen)) (rowsOf cur) records ∧
      applyAll (oldRows cur) (topk.onRecords containers originalGroupLen cur records).2 =
        some (oldRows (topk.onRecords containers originalGroupLen cur records).1) := by
  induction records generalizing cur with
  | nil => exact ⟨rfl, rfl⟩
  | cons record records ih =>
    obtain ⟨rows, emitted⟩ := topk.onRecord_spec containers originalGroupLen cur record
    obtain ⟨laterRows, laterEmitted⟩ := ih (topk.onRecord containers originalGroupLen cur record).1
    refine ⟨?_, ?_⟩
    · rw [onRecords, laterRows, rows]
      rfl
    · rw [onRecords, applyAll_append, emitted]
      exact laterEmitted

end

/-! ## Finishing a group -/

/-- Rearranged so that every position still holds a row of the same order. -/
structure TiedWith (order : Order) (left right : List (CurrentRecord V)) : Prop where
  perm : left.Perm right
  tied : ∀ (index : Nat) (inLeft : index < left.length) (inRight : index < right.length),
    order.cmp left[index].row right[index].row = .eq

theorem TiedWith.refl (order : Order) (cur : List (CurrentRecord V)) :
    TiedWith order cur cur where
  perm := List.Perm.refl _
  tied _ _ _ := Std.ReflCmp.compare_self

theorem TiedWith.trans {first second third : List (CurrentRecord V)}
    (left : TiedWith order first second) (right : TiedWith order second third) :
    TiedWith order first third where
  perm := left.perm.trans right.perm
  tied index inFirst inThird := by
    have inSecond : index < second.length := left.perm.length_eq ▸ inFirst
    exact Std.TransCmp.eq_trans (left.tied index inFirst inSecond)
      (right.tied index inSecond inThird)

theorem TiedWith.pairwise {left right : List (CurrentRecord V)} (tied : TiedWith order left right)
    (sorted : right.Pairwise fun low high => order.le low.row high.row) :
    left.Pairwise fun low high => order.le low.row high.row := by
  rw [pairwise_iff_getElem] at sorted ⊢
  intro low high inLow inHigh before
  have length := tied.perm.length_eq
  have between := sorted low high (length ▸ inLow) (length ▸ inHigh) before
  have lowTied := tied.tied low inLow (length ▸ inLow)
  have highTied := tied.tied high inHigh (length ▸ inHigh)
  unfold Order.le at between ⊢
  rw [Std.TransCmp.congr_left lowTied, Std.TransCmp.congr_right highTied]
  exact between

section

variable (start : Nat) (cur : List (CurrentRecord V))

theorem swapRound_tied (index : Nat) :
    TiedWith topk.order (topk.swapRound start cur index) cur := by
  unfold swapRound
  split
  case h_1 => exact TiedWith.refl _ _
  case h_2 record here =>
    split_ifs with isNew
    case neg => exact TiedWith.refl _ _
    case pos =>
      simp only
      split
      case h_1 => exact TiedWith.refl _ _
      case h_2 idx found =>
        obtain ⟨inTake, matched, _⟩ := findIdx?_eq_some_iff_getElem.mp found
        split
        case h_1 => exact TiedWith.refl _ _
        case h_2 other there =>
          obtain ⟨inIndex, rfl⟩ := List.getElem?_eq_some_iff.mp here
          obtain ⟨inPosition, rfl⟩ := List.getElem?_eq_some_iff.mp there
          have same : topk.order.cmp cur[idx].row cur[index].row = .eq := by
            simp only [getElem_take, Bool.and_eq_true, beq_iff_eq] at matched
            exact matched.2
          refine ⟨set_set_perm inIndex inPosition, ?_⟩
          intro at_ inSwapped inCurrent
          rw [getElem_set, getElem_set]
          split_ifs with isPosition isIndex
          · subst isPosition
            exact Std.OrientedCmp.eq_symm same
          · subst isIndex
            exact same
          · exact Std.ReflCmp.compare_self

theorem swapTies_tied : TiedWith topk.order (topk.swapTies start cur) cur := by
  unfold swapTies
  generalize range' start (cur.length - start) = indices
  induction indices generalizing cur with
  | nil => exact TiedWith.refl _ _
  | cons index indices ih =>
    exact (ih _).trans (topk.swapRound_tied start cur index)

end

omit [LinearOrder V] in
theorem oldRows_eq_coe :
    oldRows cur = ((cur.filter (!·.isNew)).map CurrentRecord.row : List (Row V)) := by
  unfold oldRows
  simp

omit [LinearOrder V] in
theorem rowsOf_eq_old_add_new (cur : List (CurrentRecord V)) :
    rowsOf cur = oldRows cur + ((cur.filter (·.isNew)).map CurrentRecord.row : List (Row V)) := by
  induction cur with
  | nil => rfl
  | cons record cur ih =>
    obtain ⟨row, isNew⟩ := record
    cases isNew with
    | true =>
      rw [rowsOf_cons, ih, ← Multiset.add_cons]
      rfl
    | false =>
      rw [rowsOf_cons, ih]
      rfl

theorem applyAll_emitGroup (start : Nat) (sorted : List (CurrentRecord V)) :
    applyAll (oldRows sorted) (emitGroup start sorted) = some (rowsOf (sorted.drop start)) := by
  have old : oldRows sorted = oldRows (sorted.drop start) + oldRows (sorted.take start) := by
    conv_lhs => rw [← take_append_drop start sorted]
    rw [oldRows_append, add_comm]
  have emitted : emitGroup start sorted =
      (((sorted.drop start).filter (·.isNew)).map CurrentRecord.row).map .positive ++
        (((sorted.take start).filter (!·.isNew)).map CurrentRecord.row).map .negative := by
    simp only [map_map]
    rfl
  rw [emitted, applyAll_append, applyAll_map_positive, Option.bind_some, old, add_right_comm,
    ← rowsOf_eq_old_add_new, oldRows_eq_coe, applyAll_map_negative]

/-! ## What a group's rows become -/

/-- **The rows of a finished group.** A group that was full and no longer is
gets rows of the parent; any other keeps the greatest of the tracked rows. -/
def Outcome (own tracked : Multiset (Row V)) (parentRows : List (Row V))
    (settled : Multiset (Row V)) : Prop :=
  if own.card = topk.k ∧ tracked.card < topk.k then
    settled = tracked + (topk.backfill containers parentRows tracked.card : List (Row V))
  else
    ∃ dropped, settled + dropped = tracked ∧ settled.card = min topk.k tracked.card ∧
      ∀ low ∈ dropped, ∀ high ∈ settled, topk.order.le low high

theorem rowsOf_top (cur : List (CurrentRecord V)) (start : Nat) :
    ∃ dropped, rowsOf ((topk.swapTies start
        (containers.heap.intoSortedVec.sort cur).reverse).drop start) + dropped = rowsOf cur ∧
      oldRows (topk.swapTies start (containers.heap.intoSortedVec.sort cur).reverse) = oldRows cur ∧
      dropped.card = min start cur.length ∧
      ∀ low ∈ dropped, ∀ high ∈ rowsOf ((topk.swapTies start
        (containers.heap.intoSortedVec.sort cur).reverse).drop start),
        topk.order.le low high := by
  set ascending := (containers.heap.intoSortedVec.sort cur).reverse
  set swapped := topk.swapTies start ascending
  have ascendingPerm : ascending.Perm cur :=
    (reverse_perm _).trans (containers.heap.intoSortedVec.perm cur)
  have tied := topk.swapTies_tied start ascending
  have perm : swapped.Perm cur := tied.perm.trans ascendingPerm
  have sorted : ascending.Pairwise fun low high => topk.order.le low.row high.row := by
    rw [pairwise_reverse]
    refine (containers.heap.intoSortedVec.sorted cur).imp ?_
    intro high low isLE
    unfold CurrentRecord.cmp at isLE
    rw [← topk.order.cmp_swap] at isLE
    exact isLE
  have swappedSorted : swapped.Pairwise fun low high => topk.order.le low.row high.row :=
    tied.pairwise sorted
  refine ⟨rowsOf (swapped.take start), ?_, oldRows_perm perm, ?_, ?_⟩
  · rw [add_comm, ← rowsOf_append, take_append_drop, rowsOf_perm perm]
  · rw [card_rowsOf, length_take, perm.length_eq]
  · intro low memberLow high memberHigh
    obtain ⟨lowRecord, inTake, rfl⟩ := Multiset.mem_map.mp memberLow
    obtain ⟨highRecord, inDrop, rfl⟩ := Multiset.mem_map.mp memberHigh
    rw [← take_append_drop start swapped, pairwise_append] at swappedSorted
    exact swappedSorted.2.2 lowRecord (Multiset.mem_coe.mp inTake) highRecord
      (Multiset.mem_coe.mp inDrop)

section

variable {groupKey : Key V} {states : StateMap V}

theorem postGroup_eq {filled : List (CurrentRecord V)} {originalGroupLen : Nat}
    {nodes : DomainNodes V} {lookup : Option (Lookup V)}
    (backfilled : topk.backfillGroup containers cur groupKey originalGroupLen states nodes =
      .ok (filled, lookup)) :
    topk.postGroup containers cur groupKey originalGroupLen states nodes =
      .ok (emitGroup (cur.length - topk.k) (topk.swapTies (cur.length - topk.k)
          (containers.heap.intoSortedVec.sort filled).reverse), lookup) := by
  unfold postGroup
  rw [backfilled]
  rfl

/-- **`post_group`** on a fully materialized parent: the emitted records take
the old rows to an outcome of the group. -/
theorem postGroup_spec (nodes : DomainNodes V) {parent : State V} {parentTable : Multiset (Row V)}
    (here : states topk.src = some parent) (full : FullOn parent topk.groupBy parentTable)
    (length : groupKey.length = topk.groupBy.length) (cur : List (CurrentRecord V))
    (own : Multiset (Row V)) :
    ∃ emitted lookup settled,
      topk.postGroup containers cur groupKey own.card states nodes = .ok (emitted, lookup) ∧
      applyAll (oldRows cur) emitted = some settled ∧
      topk.Outcome containers own (rowsOf cur) (parent.rowsFor topk.groupBy groupKey)
        settled := by
  obtain ⟨found, _⟩ := full.rowsFor length
  by_cases short : own.card = topk.k ∧ cur.length < own.card
  · -- the group was full and is short now
    set rows := parent.rowsFor topk.groupBy groupKey
    set added : List (CurrentRecord V) :=
      (topk.backfill containers rows cur.length).map fun row => { row, isNew := true }
      with addedDef
    set extended := containers.heap.extend cur added with extendedDef
    have extendedPerm : extended.Perm (cur ++ added) := containers.heap.extend_perm cur added
    have start : cur.length - topk.k = 0 := by omega
    have filled : topk.backfillGroup containers cur groupKey own.card states nodes =
        .ok (extended, some { on := topk.src, cols := topk.groupBy, key := .equal groupKey }) := by
      rw [backfillGroup, if_pos short]
      simp [ingredientLookup, here, found, IngredientLookupResult.ofLookup,
        IngredientLookupResult.ofRows, extendedDef, addedDef]
    obtain ⟨dropped, parts, old, size, _⟩ := topk.rowsOf_top containers extended 0
    obtain rfl : dropped = 0 := Multiset.card_eq_zero.mp (by simpa using size)
    have posted := topk.postGroup_eq containers filled
    rw [start] at posted
    refine ⟨_, _, rowsOf extended, posted, ?_, ?_⟩
    · have emitted := applyAll_emitGroup 0
        (topk.swapTies 0 (containers.heap.intoSortedVec.sort extended).reverse)
      rw [old, oldRows_perm extendedPerm, oldRows_append, oldRows_map_new, add_zero] at emitted
      rw [emitted, ← parts, add_zero]
    · have shortRows : own.card = topk.k ∧ (rowsOf cur).card < topk.k := by
        rw [card_rowsOf]
        omega
      rw [Outcome, if_pos shortRows]
      rw [rowsOf_perm extendedPerm, rowsOf_append, rowsOf_map, card_rowsOf]
  · have kept : topk.backfillGroup containers cur groupKey own.card states nodes =
        .ok (cur, none) := by
      simp only [backfillGroup, if_neg short]
      rfl
    obtain ⟨dropped, parts, old, size, below⟩ :=
      topk.rowsOf_top containers cur (cur.length - topk.k)
    have emitted := applyAll_emitGroup (cur.length - topk.k) (topk.swapTies (cur.length - topk.k)
        (containers.heap.intoSortedVec.sort cur).reverse)
    rw [old] at emitted
    refine ⟨_, _, _, topk.postGroup_eq containers kept, emitted, ?_⟩
    have notShort : ¬ (own.card = topk.k ∧ (rowsOf cur).card < topk.k) := by
      rw [card_rowsOf]
      omega
    rw [Outcome, if_neg notShort]
    refine ⟨dropped, parts, ?_, below⟩
    have total := congrArg Multiset.card parts
    rw [Multiset.card_add, card_rowsOf cur] at total
    rw [card_rowsOf cur]
    omega

end

/-! ## When the outcome is the group's top -/

/-- **The condition on one group.** `own` are the operator's rows of the group,
`records` the group's records in batch order, `parentRows` the parent's rows of
the group after the batch, as a lookup returns them.

A group that was not full is always settled. In a full one, every row of the
parent that is not tracked must have `k` tracked rows at least as great; if
fewer than `k` rows are tracked, no untracked row may be above a tracked one,
and the backfill must not take a tracked row again. -/
def GroupSettled (own : Multiset (Row V)) (records : List (Record V))
    (parentRows : List (Row V)) : Prop :=
  let held := topk.tracked true own records
  let parent : Multiset (Row V) := parentRows
  own.card < topk.k ∨
    (topk.k ≤ held.card ∧
      ∀ outside ∈ parent - held, topk.k ≤ (held.filter (topk.order.le outside)).card) ∨
    (held.card < topk.k ∧
      (∀ outside ∈ parent - held, ∀ inside ∈ held, topk.order.le outside inside) ∧
      held + (topk.backfill containers parentRows held.card : List (Row V)) ≤ parent)

variable {before after : Multiset (Row V)} {records : List (Record V)}

theorem tracked_le (full : Bool) {held : Multiset (Row V)} (sub : held ≤ before)
    (valid : applyAll before records = some after) : topk.tracked full held records ≤ after := by
  suffices all : ∀ held ≤ before, topk.tracked full held records ≤ after from all held sub
  refine applyAll_induction valid (fun _ sub => sub) ?_ ?_
  · intro before row records ih held sub
    refine ih _ ?_
    rw [trackOne]
    split_ifs
    · exact sub.trans (Multiset.le_cons_self _ _)
    · exact (Multiset.cons_le_cons_iff row).mpr sub
  · intro before row records _ ih held sub
    exact ih _ (Multiset.erase_le_erase row sub)

theorem tracked_false (valid : applyAll before records = some after) :
    topk.tracked false before records = after := by
  exact applyAll_induction valid rfl (fun _ _ _ ih => ih) fun _ _ _ _ ih => ih

theorem sortUnstable_pairwise (parentRows : List (Row V)) :
    (containers.sortUnstable.sort parentRows).Pairwise fun high low => topk.order.le low high := by
  refine (containers.sortUnstable.sorted parentRows).imp ?_
  intro high low isLE
  unfold descending at isLE
  rw [← topk.order.cmp_swap] at isLE
  exact isLE

/-- **An outcome is the top of the group exactly under the condition.** -/
theorem outcome_isTop_iff {own settled : Multiset (Row V)} {parentRows : List (Row V)}
    (top : IsTop topk.order.le topk.k own before) (valid : applyAll before records = some after)
    (contents : (parentRows : Multiset (Row V)) = after) (outcome : topk.Outcome containers own
      (topk.tracked (decide (topk.k ≤ own.card)) own records) parentRows settled) :
    IsTop topk.order.le topk.k settled after ↔
      topk.GroupSettled containers own records parentRows := by
  by_cases room : own.card < topk.k
  · -- the group holds all of the parent's rows
    obtain rfl : own = before := Multiset.eq_of_le_of_card_le top.sub (by have := top.card; omega)
    have notFull : decide (topk.k ≤ own.card) = false := by simpa using room
    rw [notFull, topk.tracked_false valid, Outcome, if_neg (by omega)] at outcome
    obtain ⟨dropped, parts, size, below⟩ := outcome
    refine iff_of_true ?_ (.inl room)
    refine ⟨parts ▸ Multiset.le_add_right _ _, size, ?_⟩
    rw [← parts, add_tsub_cancel_left]
    exact below
  · have full : own.card = topk.k := by
      have size := top.card
      omega
    have isFull : decide (topk.k ≤ own.card) = true := by simpa using room
    rw [isFull] at outcome
    have sub := topk.tracked_le true top.sub valid
    unfold GroupSettled
    simp only [contents]
    set held := topk.tracked true own records with heldDef
    by_cases enough : topk.k ≤ held.card
    · rw [Outcome, if_neg (by omega)] at outcome
      obtain ⟨dropped, parts, size, below⟩ := outcome
      rw [selected_iff parts (by omega) below sub]
      simp [room, enough]
    · rw [Outcome, if_pos (by omega)] at outcome
      subst outcome
      rw [backfill, backfilled_iff ?_ (topk.sortUnstable_pairwise containers parentRows) sub
        (by omega)]
      · simp only [room, enough, false_and, false_or]
        refine ⟨fun both => ⟨by omega, both⟩, fun all => all.2⟩
      · rw [Multiset.coe_eq_coe.mpr (containers.sortUnstable.perm parentRows), contents]

end TopK

end ReadySet.Ops
