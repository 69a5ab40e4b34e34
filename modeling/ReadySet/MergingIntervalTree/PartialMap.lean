import ReadySet.MergingIntervalTree.Difference

/-!
Owns the partial map (`partial-map`) over its interval tree: an ordered map of entries
and the tree of the keys that are known, where a known key without an entry has the
empty value.

A reference that a method gives out is written through by `write`. An entry handle is
used up in the operation that takes it.
-/

namespace ReadySet.MergingIntervalTree

open Data Dataflow Library IntervalTreeSet
open DataflowState (checkRange rangeContains)

universe u

variable {κ β : Type u} [LinearOrder κ]

structure PartialMap (κ β : Type u) [LinearOrder κ] where
  map : BTreeMap κ β compare := ∅
  intervalTree : IntervalTreeSet κ := {}
  emptyValue : β

namespace PartialMap

/-- `Entry`, with the two kinds of `OccupiedEntry`. -/
inductive Entry (β : Type u) where
  | vacant
  | occupiedDefault
  | occupiedPresent (value : β)

def new [Inhabited β] : PartialMap κ β where
  emptyValue := default

variable (pmap : PartialMap κ β)

def clear : PartialMap κ β :=
  { pmap with map := ∅, intervalTree := pmap.intervalTree.clear }

def get (key : κ) : Option β :=
  match pmap.map.get? key with
  | none => if pmap.intervalTree.containsPoint key then some pmap.emptyValue else none
  | some value => some value

def containsKey (key : κ) : Bool :=
  (pmap.map.get? key).isSome || pmap.intervalTree.containsPoint key

def containsRange (start stop : Bound κ) : ReadySetResult Bool :=
  pmap.intervalTree.coversInterval start stop

def insert (key : κ) (value : β) : ReadySetResult (Option β × PartialMap κ β) := do
  let intervalTree ← pmap.intervalTree.insertPoint key
  return (pmap.map.get? key,
    { pmap with intervalTree, map := pmap.map.insert key value })

def insertRange (start stop : Bound κ) : ReadySetResult (PartialMap κ β) := do
  let intervalTree ← pmap.intervalTree.insertInterval start stop
  return { pmap with intervalTree }

def entry (key : κ) : Entry β :=
  match pmap.map.get? key with
  | none =>
    if pmap.intervalTree.containsPoint key then .occupiedDefault else .vacant
  | some value => .occupiedPresent value

/-- `VacantEntry::insert`. -/
def vacantInsert (key : κ) (value : β) : ReadySetResult (PartialMap κ β) := do
  let intervalTree ← pmap.intervalTree.insertPoint key
  return { pmap with intervalTree, map := pmap.map.insert key value }

def intoMut [Inhabited β] (key : κ) : PartialMap κ β :=
  match pmap.entry key with
  | .occupiedDefault => { pmap with map := pmap.map.insert key default }
  | _ => pmap

def orDefault [Inhabited β] (key : κ) : ReadySetResult (PartialMap κ β) :=
  match pmap.entry key with
  | .vacant => pmap.vacantInsert key default
  | _ => .ok (pmap.intoMut key)

/-- `PartialMap::get_mut`: whether there is a reference, and the map it points into. -/
def getMut [Inhabited β] (key : κ) : Bool × PartialMap κ β :=
  match pmap.map.get? key with
  | none =>
    if pmap.intervalTree.containsPoint key then
      (true, { pmap with map := pmap.map.insert key default })
    else (false, pmap)
  | some _ => (true, pmap)

/-- A write through a reference to the value of a key. -/
def write (key : κ) (update : β → β) : PartialMap κ β :=
  match pmap.map.get? key with
  | none => pmap
  | some value => { pmap with map := pmap.map.insert key (update value) }

/-- `BTreeMap::range`. -/
def entriesIn (start stop : Bound κ) : List (κ × β) :=
  pmap.map.entries.filter fun entry => rangeContains compare start stop entry.1

/-- `PartialMap::range`: the entries, or the ranges that are missing. -/
def range (start stop : Bound κ) :
    ReadySetResult (Except (List (Bound κ × Bound κ)) (List (κ × β))) :=
  match pmap.intervalTree.getIntervalDifference start stop with
  | .error error => .error error
  | .ok diff =>
    if diff.isEmpty then .ok (.ok (pmap.entriesIn start stop)) else .ok (.error diff)

def remove (key : κ) : ReadySetResult (Option β × PartialMap κ β) := do
  let intervalTree ← pmap.intervalTree.removePoint key
  return (pmap.map.get? key,
    { pmap with intervalTree, map := pmap.map.remove key })

def removeEntry (key : κ) : ReadySetResult (Option (κ × β) × PartialMap κ β) := do
  let intervalTree ← pmap.intervalTree.removePoint key
  return ((pmap.map.get? key).map fun value => (key, value),
    { pmap with intervalTree, map := pmap.map.remove key })

/-- `PartialMap::remove_range`, with the entries it drains. -/
def removeRange (start stop : Bound κ) : ReadySetResult (List (κ × β) × PartialMap κ β) := do
  let intervalTree ← pmap.intervalTree.removeInterval start stop
  return (pmap.entriesIn start stop, { pmap with
    intervalTree
    map := pmap.map.retain fun key => !rangeContains compare start stop key })

/-- `Extend::extend`: every key is inserted into the tree, then into the map. -/
def extend (items : List (κ × β)) : ReadySetResult (PartialMap κ β) :=
  items.foldlM (fun pmap item => do
    let intervalTree ← pmap.intervalTree.insertPoint item.1
    return { pmap with intervalTree, map := pmap.map.insert item.1 item.2 }) pmap

/-! ## Operations -/

/-- What changes a map. A reference is written through by an update. -/
inductive Op (κ β : Type u) where
  | insert (key : κ) (value : β)
  | insertRange (start stop : Bound κ)
  | vacantInsert (key : κ) (value : β) (update : β → β)
  | intoMut (key : κ) (update : β → β)
  | orDefault (key : κ) (update : β → β)
  | getMut (key : κ) (update : β → β)
  | remove (key : κ)
  | removeEntry (key : κ)
  | removeRange (start stop : Bound κ)
  | extend (items : List (κ × β))
  | clear

namespace Op

/-- An operation on a map. A vacant entry is only inserted into, and an occupied one only
turned into a reference, when `entry` gives one. -/
def apply [Inhabited β] (pmap : PartialMap κ β) : Op κ β → ReadySetResult (PartialMap κ β)
  | insert key value => (pmap.insert key value).map Prod.snd
  | insertRange start stop => pmap.insertRange start stop
  | vacantInsert key value update =>
    match pmap.entry key with
    | .vacant => (pmap.vacantInsert key value).map fun inserted => inserted.write key update
    | _ => .ok pmap
  | intoMut key update =>
    match pmap.entry key with
    | .vacant => .ok pmap
    | _ => .ok ((pmap.intoMut key).write key update)
  | orDefault key update => (pmap.orDefault key).map fun given => given.write key update
  | getMut key update =>
    match pmap.getMut key with
    | (true, given) => .ok (given.write key update)
    | (false, same) => .ok same
  | remove key => (pmap.remove key).map Prod.snd
  | removeEntry key => (pmap.removeEntry key).map Prod.snd
  | removeRange start stop => (pmap.removeRange start stop).map Prod.snd
  | extend items => pmap.extend items
  | clear => .ok pmap.clear

/-- The ranges of an operation pass `check_range`. -/
def Valid : Op κ β → Prop
  | insertRange start stop | removeRange start stop => checkRange compare start stop = .ok ⟨⟩
  | _ => True

end Op

/-! ## Stored keys are covered -/

/-- Every stored key is in the tree. -/
structure Consistent (pmap : PartialMap κ β) : Prop where
  wellFormed : pmap.intervalTree.WellFormed
  covered : ∀ key value, pmap.map.get? key = some value → key ∈ pmap.intervalTree.points

section

variable {pmap : PartialMap κ β} (inv : pmap.Consistent)
include inv

variable (key : κ)

theorem insertPoint_spec : ∃ inserted,
    pmap.intervalTree.insertPoint key = .ok inserted ∧ inserted.WellFormed ∧
      inserted.points = pmap.intervalTree.points ∪ {key} :=
  MergingIntervalTree.Op.apply_spec inv.wellFormed
    (show (MergingIntervalTree.Op.insertPoint key).Valid from trivial)

theorem removePoint_spec : ∃ removed,
    pmap.intervalTree.removePoint key = .ok removed ∧ removed.WellFormed ∧
      removed.points = pmap.intervalTree.points \ {key} :=
  MergingIntervalTree.Op.apply_spec inv.wellFormed
    (show (MergingIntervalTree.Op.removePoint key).Valid from trivial)

section

variable {tree : IntervalTreeSet κ} (wf : tree.WellFormed)

include wf

theorem Consistent.put {key : κ} (grows : pmap.intervalTree.points ⊆ tree.points)
    (isCovered : key ∈ tree.points) (value : β) : Consistent { pmap with
      intervalTree := tree
      map := pmap.map.insert key value } := by
  refine ⟨wf, fun other found isFound => ?_⟩
  rw [BTreeMap.get?_insert] at isFound
  split at isFound
  · next same => exact same ▸ isCovered
  · exact grows (inv.covered other found isFound)

theorem Consistent.take {map : BTreeMap κ β compare}
    (kept : ∀ key value, map.get? key = some value → pmap.map.get? key = some value ∧
      (key ∈ pmap.intervalTree.points → key ∈ tree.points)) :
    Consistent { pmap with intervalTree := tree, map } := by
  refine ⟨wf, fun key value found => ?_⟩
  obtain ⟨stored, stays⟩ := kept key value found
  exact stays (inv.covered key value stored)

end

theorem Consistent.write (update : β → β) : (pmap.write key update).Consistent := by
  rw [PartialMap.write]
  split
  · exact inv
  · next value stored =>
      exact inv.put inv.wellFormed subset_rfl (inv.covered key value stored) _

theorem insert_consistent {value : β} : ∃ tree,
    pmap.intervalTree.insertPoint key = .ok tree ∧ Consistent { pmap with
      intervalTree := tree
      map := pmap.map.insert key value } := by
  obtain ⟨tree, isTree, wf, points⟩ := insertPoint_spec inv key
  refine ⟨tree, isTree, inv.put wf ?_ ?_ value⟩
  · exact points ▸ Set.subset_union_left
  · exact points ▸ .inr rfl

theorem remove_consistent : ∃ tree,
    pmap.intervalTree.removePoint key = .ok tree ∧ Consistent { pmap with
      intervalTree := tree
      map := pmap.map.remove key } := by
  obtain ⟨tree, isTree, wf, points⟩ := removePoint_spec inv key
  refine ⟨tree, isTree, inv.take wf fun other value found => ?_⟩
  rw [BTreeMap.get?_remove] at found
  split at found
  · nomatch found
  · next other => exact ⟨found, fun isPoint => points ▸ ⟨isPoint, other⟩⟩

theorem intoMut_consistent [Inhabited β] : (pmap.intoMut key).Consistent := by
  rw [intoMut, entry]
  cases stored : pmap.map.get? key with
  | some value => exact inv
  | none =>
    by_cases isCovered : pmap.intervalTree.containsPoint key = true
    · simp only [isCovered]
      exact inv.put inv.wellFormed subset_rfl
        ((containsPoint_iff inv.wellFormed key).mp isCovered) _
    · simp only [isCovered]
      exact inv

/-- `get_mut` gives the reference that an occupied entry gives. -/
theorem getMut_consistent [Inhabited β] : (pmap.getMut key).2.Consistent := by
  have given := intoMut_consistent inv key
  rw [intoMut, entry] at given
  rw [getMut]
  cases stored : pmap.map.get? key with
  | some value => exact inv
  | none =>
    by_cases isCovered : pmap.intervalTree.containsPoint key = true
    · simpa only [stored, isCovered, if_true] using given
    · simpa only [isCovered, Bool.false_eq_true, if_false] using inv

theorem extend_consistent {items : List (κ × β)} :
    ∃ extended, pmap.extend items = .ok extended ∧ extended.Consistent := by
  refine foldlM_invariant _ (fun _ => Consistent) items ?_ inv
  intro _ item _ extended _ extendedConsistent
  obtain ⟨tree, isTree, inserted⟩ := insert_consistent extendedConsistent item.1
  refine ⟨_, ?_, inserted⟩
  rw [isTree]
  rfl

variable {start stop : Bound κ}

/-- `remove_range` drains the entries in the range, and takes off these and the keys in it. -/
theorem removeRange_spec (checked : checkRange compare start stop = .ok ⟨⟩) :
    ∃ rest, pmap.removeRange start stop = .ok (pmap.entriesIn start stop, rest) ∧
      rest.Consistent ∧
      rest.intervalTree.points = pmap.intervalTree.points \ rangePoints start stop ∧
      ∀ key, rest.map.get? key =
        if rangeContains compare start stop key then none else pmap.map.get? key := by
  obtain ⟨tree, isTree, wf, points⟩ := removeInterval_spec
    (checkRange_ok_iff.mp checked) inv.wellFormed
  rw [← rangePoints_eq] at points
  refine ⟨{ pmap with
    intervalTree := tree
    map := pmap.map.retain fun key => !rangeContains compare start stop key },
    ?_, inv.take wf fun key value found => ?_, points, fun key => ?_⟩
  · rw [removeRange, isTree]
    rfl
  · rw [BTreeMap.get?_retain] at found
    split at found
    · next outside =>
        refine ⟨found, fun isPoint => points ▸ ⟨isPoint, fun inside => ?_⟩⟩
        rw [show rangeContains compare start stop key = true from inside] at outside
        nomatch outside
    · nomatch found
  · rw [BTreeMap.get?_retain]
    cases rangeContains compare start stop key <;> rfl

/-- Every valid operation keeps the map consistent. -/
theorem apply_consistent [Inhabited β] {op : Op κ β} (valid : op.Valid) :
    ∃ next, op.apply pmap = .ok next ∧ next.Consistent := by
  cases op with
  | insert key value =>
    obtain ⟨tree, isTree, inserted⟩ := insert_consistent inv key
    refine ⟨_, ?_, inserted⟩
    rw [Op.apply, PartialMap.insert, isTree]
    rfl
  | insertRange start stop =>
    obtain ⟨tree, isTree, wf, points⟩ := insertInterval_spec
      (checkRange_ok_iff.mp valid) inv.wellFormed
    refine ⟨_, ?_, inv.take wf fun key value found =>
      ⟨found, fun isPoint => points ▸ .inl isPoint⟩⟩
    rw [Op.apply, PartialMap.insertRange, isTree]
    rfl
  | vacantInsert key value update =>
    rw [Op.apply]
    cases pmap.entry key with
    | vacant =>
      obtain ⟨tree, isTree, inserted⟩ := insert_consistent inv key
      refine ⟨_, ?_, inserted.write key update⟩
      rw [PartialMap.vacantInsert, isTree]
      rfl
    | occupiedDefault | occupiedPresent _ => exact ⟨pmap, rfl, inv⟩
  | intoMut key update =>
    rw [Op.apply]
    cases pmap.entry key with
    | vacant => exact ⟨pmap, rfl, inv⟩
    | occupiedDefault | occupiedPresent _ =>
      exact ⟨_, rfl, (intoMut_consistent inv key).write key update⟩
  | orDefault key update =>
    rw [Op.apply, PartialMap.orDefault]
    cases pmap.entry key with
    | vacant =>
      obtain ⟨tree, isTree, inserted⟩ := insert_consistent inv key
      refine ⟨_, ?_, inserted.write key update⟩
      rw [PartialMap.vacantInsert, isTree]
      rfl
    | occupiedDefault | occupiedPresent _ =>
      exact ⟨_, rfl, (intoMut_consistent inv key).write key update⟩
  | getMut key update =>
    have given := getMut_consistent inv key
    rw [Op.apply]
    cases isGiven : pmap.getMut key with
    | mk found next =>
      rw [isGiven] at given
      cases found with
      | true => exact ⟨_, rfl, given.write key update⟩
      | false => exact ⟨_, rfl, given⟩
  | remove key =>
    obtain ⟨tree, isTree, removed⟩ := remove_consistent inv key
    refine ⟨_, ?_, removed⟩
    rw [Op.apply, PartialMap.remove, isTree]
    rfl
  | removeEntry key =>
    obtain ⟨tree, isTree, removed⟩ := remove_consistent inv key
    refine ⟨_, ?_, removed⟩
    rw [Op.apply, PartialMap.removeEntry, isTree]
    rfl
  | removeRange start stop =>
    obtain ⟨rest, isRest, restConsistent, -⟩ := removeRange_spec inv valid
    refine ⟨rest, ?_, restConsistent⟩
    rw [Op.apply, isRest]
    rfl
  | extend items => exact extend_consistent inv
  | clear =>
    refine ⟨_, rfl, wellFormed_empty, fun key value found => ?_⟩
    nomatch found

/-! ## Queries -/

theorem get_isSome_iff : (pmap.get key).isSome = true ↔ key ∈ pmap.intervalTree.points := by
  rw [← containsPoint_iff inv.wellFormed, get]
  cases stored : pmap.map.get? key with
  | none => simp
  | some value =>
    have isCovered := (containsPoint_iff inv.wellFormed key).mpr (inv.covered key value stored)
    simp [isCovered]

theorem containsKey_iff : pmap.containsKey key = true ↔ key ∈ pmap.intervalTree.points := by
  rw [← get_isSome_iff inv, containsKey, get]
  cases pmap.map.get? key with
  | none => simp
  | some value => rfl

omit inv in
theorem mem_entriesIn {item : κ × β} :
    item ∈ pmap.entriesIn start stop ↔
      pmap.map.get? item.1 = some item.2 ∧ item.1 ∈ rangePoints start stop := by
  rw [entriesIn, List.mem_filter, BTreeMap.get?_eq_some]
  rfl

/-- `range` gives the entries when the tree covers the range, and otherwise what is missing. -/
theorem range_spec (checked : checkRange compare start stop = .ok ⟨⟩) :
    if pmap.containsRange start stop = .ok true then
      pmap.range start stop = .ok (.ok (pmap.entriesIn start stop))
    else ∃ missing, missing ≠ [] ∧ pmap.range start stop = .ok (.error missing) ∧
      unionOf missing = rangePoints start stop \ pmap.intervalTree.points := by
  have less := checkRange_ok_iff.mp checked
  obtain ⟨missing, isMissing, -, union⟩ := inv.wellFormed.getIntervalDifference_spec less
  have nil_iff := inv.wellFormed.getIntervalDifference_nil_iff less
  rw [isMissing, Except.ok.injEq] at nil_iff
  split
  · next covers =>
      rw [range, isMissing, nil_iff.mpr covers]
      rfl
  · next notCovers =>
      have notNil : missing ≠ [] := fun isNil => notCovers (nil_iff.mp isNil)
      refine ⟨missing, notNil, ?_, rangePoints_eq start stop ▸ union⟩
      simp [range, isMissing, notNil]

end

/-! ## The map of covered keys -/

section

/-- The map with the keys of the tree as a set, as the states use it. -/
def abstraction (pmap : PartialMap κ β) : DataflowState.PartialMap κ β compare where
  map := pmap.map
  intervalTree := ⟨pmap.intervalTree.containsPoint⟩

variable {pmap : PartialMap κ β}

theorem abstraction_eq (wf : pmap.intervalTree.WellFormed) {covers : κ → Bool}
    (points : ∀ key, key ∈ pmap.intervalTree.points ↔ covers key = true) :
    pmap.abstraction = ⟨pmap.map, ⟨covers⟩⟩ := by
  have same : pmap.intervalTree.containsPoint = covers := by
    funext key
    rw [Bool.eq_iff_iff, containsPoint_iff wf, points]
  rw [abstraction, same]

variable (inv : pmap.Consistent)
include inv

theorem insert_abstraction (key : κ) (value : β) : ∃ next,
    pmap.insert key value = .ok ((pmap.abstraction.insert key value).1, next) ∧
      next.abstraction = (pmap.abstraction.insert key value).2 := by
  obtain ⟨tree, isTree, wf, points⟩ := insertPoint_spec inv key
  refine ⟨_, by rw [insert, isTree]; rfl, abstraction_eq wf fun other => ?_⟩
  rw [points, Set.union_comm, Set.singleton_union, Set.mem_insert_iff,
    ← containsPoint_iff inv.wellFormed]
  simp [abstraction]

theorem remove_abstraction (key : κ) : ∃ next,
    pmap.remove key = .ok ((pmap.abstraction.remove key).1, next) ∧
      next.abstraction = (pmap.abstraction.remove key).2 := by
  obtain ⟨tree, isTree, wf, points⟩ := removePoint_spec inv key
  refine ⟨_, by rw [remove, isTree]; rfl, abstraction_eq wf fun other => ?_⟩
  rw [points, Set.mem_sdiff, ← containsPoint_iff inv.wellFormed, and_comm]
  simp [abstraction]

variable {start stop : Bound κ} (checked : checkRange compare start stop = .ok ⟨⟩)
include checked

theorem insertRange_abstraction : ∃ next, pmap.insertRange start stop = .ok next ∧
    pmap.abstraction.insertRange start stop = .ok next.abstraction := by
  obtain ⟨tree, isTree, wf, points⟩ := insertInterval_spec
    (checkRange_ok_iff.mp checked) inv.wellFormed
  refine ⟨_, by rw [insertRange, isTree]; rfl, ?_⟩
  rw [DataflowState.PartialMap.insertRange, DataflowState.IntervalTreeSet.insertInterval, checked]
  refine congrArg Except.ok (Eq.symm ?_)
  refine abstraction_eq wf fun other => ?_
  rw [points, ← rangePoints_eq, Set.mem_union, or_comm,
    ← containsPoint_iff inv.wellFormed, Bool.or_eq_true]
  rfl

theorem removeRange_abstraction : ∃ next,
    pmap.removeRange start stop = .ok (pmap.entriesIn start stop, next) ∧
    pmap.abstraction.removeRange start stop =
      .ok ((pmap.entriesIn start stop).map Prod.snd, next.abstraction) := by
  obtain ⟨tree, isTree, wf, points⟩ := removeInterval_spec
    (checkRange_ok_iff.mp checked) inv.wellFormed
  refine ⟨_, by rw [removeRange, isTree]; rfl, ?_⟩
  rw [DataflowState.PartialMap.removeRange, DataflowState.IntervalTreeSet.removeInterval, checked]
  refine congrArg (fun next => Except.ok (_, next)) (Eq.symm ?_)
  refine abstraction_eq wf fun other => ?_
  rw [points, ← rangePoints_eq, Set.mem_sdiff, and_comm, ← containsPoint_iff inv.wellFormed,
    Bool.and_eq_true, Bool.not_eq_true', Bool.eq_false_iff]
  rfl

end

theorem run_consistent [Inhabited β] {ops : List (Op κ β)} (valid : ∀ op ∈ ops, op.Valid) :
    ∃ pmap, ops.foldlM Op.apply (new : PartialMap κ β) = .ok pmap ∧ pmap.Consistent := by
  refine foldlM_invariant _ (fun _ => Consistent) ops ?_
    ⟨wellFormed_empty, fun key value found => nomatch found⟩
  intro done op rest pmap split inv
  exact apply_consistent inv (valid op (by simp [split]))

/-- **The map with a tree refines the map with a set of keys**, on which the states are
modelled: after every sequence of operations, each operation gives on both the same
result, and maps that correspond again. -/
theorem run_refines [Inhabited β] {ops : List (Op κ β)} (valid : ∀ op ∈ ops, op.Valid) :
    ∃ pmap, ops.foldlM Op.apply (new : PartialMap κ β) = .ok pmap ∧
      (∀ key value, ∃ next, pmap.insert key value =
          .ok ((pmap.abstraction.insert key value).1, next) ∧
        next.abstraction = (pmap.abstraction.insert key value).2) ∧
      (∀ key, ∃ next, pmap.remove key = .ok ((pmap.abstraction.remove key).1, next) ∧
        next.abstraction = (pmap.abstraction.remove key).2) ∧
      ∀ start stop, checkRange compare start stop = .ok ⟨⟩ →
        (∃ next, pmap.insertRange start stop = .ok next ∧
          pmap.abstraction.insertRange start stop = .ok next.abstraction) ∧
        ∃ items next, pmap.removeRange start stop = .ok (items, next) ∧
          pmap.abstraction.removeRange start stop =
            .ok (items.map Prod.snd, next.abstraction) := by
  obtain ⟨pmap, ran, inv⟩ := run_consistent valid
  refine ⟨pmap, ran, insert_abstraction inv, remove_abstraction inv, ?_⟩
  intro start stop checked
  exact ⟨insertRange_abstraction inv checked, _, removeRange_abstraction inv checked⟩

/-- After every sequence of operations: stored keys are covered, lookups succeed exactly
on covered keys, `range` gives the entries in order or what is missing, and `remove_range`
takes off the range and nothing else. `range` gives the entries when one interval of the
tree reaches over the range, which over a dense order without ends is when all its keys
are covered. -/
theorem consistent_of_valid [Inhabited β] (ops : List (Op κ β)) (valid : ∀ op ∈ ops, op.Valid) :
    ∃ pmap, ops.foldlM Op.apply (new : PartialMap κ β) = .ok pmap ∧
      (∀ key, (pmap.map.get? key).isSome = true → key ∈ pmap.intervalTree.points) ∧
      (∀ key, (pmap.get key).isSome = true ↔ key ∈ pmap.intervalTree.points) ∧
      (∀ key, pmap.containsKey key = true ↔ key ∈ pmap.intervalTree.points) ∧
      (∀ start stop, checkRange compare start stop = .ok ⟨⟩ →
        (if pmap.containsRange start stop = .ok true then
          ∃ entries, pmap.range start stop = .ok (.ok entries) ∧
            (∀ item, item ∈ entries ↔
              pmap.map.get? item.1 = some item.2 ∧ item.1 ∈ rangePoints start stop) ∧
            (entries.Pairwise fun left right => left.1 < right.1) ∧
            rangePoints start stop ⊆ pmap.intervalTree.points
        else ∃ missing, missing ≠ [] ∧ pmap.range start stop = .ok (.error missing) ∧
          unionOf missing = rangePoints start stop \ pmap.intervalTree.points) ∧
        (DenselyOrdered κ → NoMinOrder κ → NoMaxOrder κ → Nonempty κ →
          (pmap.containsRange start stop = .ok true ↔
            rangePoints start stop ⊆ pmap.intervalTree.points))) ∧
      ∀ start stop, checkRange compare start stop = .ok ⟨⟩ →
        ∃ drained rest, pmap.removeRange start stop = .ok (drained, rest) ∧
          (∀ item, item ∈ drained ↔
            pmap.map.get? item.1 = some item.2 ∧ item.1 ∈ rangePoints start stop) ∧
          rest.intervalTree.points = pmap.intervalTree.points \ rangePoints start stop ∧
          ∀ key, rest.map.get? key =
            if rangeContains compare start stop key then none else pmap.map.get? key := by
  obtain ⟨pmap, ran, consistent⟩ := run_consistent valid
  refine ⟨pmap, ran, fun key stored => ?_, get_isSome_iff consistent,
    containsKey_iff consistent, fun start stop checked => ⟨?_, ?_⟩, fun start stop checked => ?_⟩
  · obtain ⟨value, isValue⟩ := Option.isSome_iff_exists.mp stored
    exact consistent.covered key value isValue
  · have spec := range_spec consistent checked
    split at spec
    · next covers =>
        rw [if_pos covers]
        refine ⟨_, spec, fun item => mem_entriesIn,
          (pmap.map.sorted.filter _).imp fun less => compare_lt_iff_lt.mp less, ?_⟩
        rw [rangePoints_eq]
        exact IntervalTreeSet.mem_points_of_coversInterval consistent.wellFormed
          (checkRange_ok_iff.mp checked) covers
    · next notCovers =>
        rw [if_neg notCovers]
        exact spec
  · intro _ _ _ _
    have less := checkRange_ok_iff.mp checked
    rw [rangePoints_eq]
    exact ⟨IntervalTreeSet.mem_points_of_coversInterval consistent.wellFormed less,
      IntervalTreeSet.coversInterval_of_points consistent.wellFormed less⟩
  · obtain ⟨rest, isRest, -, points, entries⟩ := removeRange_spec consistent checked
    exact ⟨_, rest, isRest, fun item => mem_entriesIn, points, entries⟩

def neighbours : List (Op ℕ ℕ) := [.insert 1 10, .insert 2 20]

theorem neighbours_valid : ∀ op ∈ neighbours, op.Valid := by
  simp only [neighbours, List.forall_mem_cons]
  exact ⟨trivial, trivial, nofun⟩

theorem neighbours_consistent : ∃ pmap, neighbours.foldlM Op.apply new = .ok pmap ∧
    (∀ key, (pmap.map.get? key).isSome = true → key ∈ pmap.intervalTree.points) ∧
    (∀ key, (pmap.get key).isSome = true ↔ key ∈ pmap.intervalTree.points) ∧
    (∀ key, pmap.containsKey key = true ↔ key ∈ pmap.intervalTree.points) ∧
    (∃ entries, pmap.range (.included 1) (.included 1) = .ok (.ok entries) ∧
      (∀ item, item ∈ entries ↔ pmap.map.get? item.1 = some item.2 ∧
        item.1 ∈ rangePoints (.included 1) (.included 1)) ∧
      (entries.Pairwise fun left right => left.1 < right.1) ∧
      rangePoints (.included 1) (.included 1) ⊆ pmap.intervalTree.points) ∧
    (∃ missing, missing ≠ [] ∧ pmap.range (.included 1) .unbounded = .ok (.error missing) ∧
      unionOf missing = rangePoints (.included 1) .unbounded \ pmap.intervalTree.points) ∧
    ∃ drained rest, pmap.removeRange (.included 2) .unbounded = .ok (drained, rest) ∧
      (∀ item, item ∈ drained ↔
        pmap.map.get? item.1 = some item.2 ∧ item.1 ∈ rangePoints (.included 2) .unbounded) ∧
      rest.intervalTree.points = pmap.intervalTree.points \ rangePoints (.included 2) .unbounded ∧
      ∀ key, rest.map.get? key =
        if rangeContains compare (.included 2) .unbounded key then none
        else pmap.map.get? key := by
  obtain ⟨pmap, ran, stored, found, contained, ranges, removed⟩ :=
    consistent_of_valid neighbours neighbours_valid
  obtain rfl := Except.ok.inj (ran.symm.trans rfl)
  exact ⟨_, ran, stored, found, contained, (ranges (.included 1) (.included 1) rfl).1,
    (ranges (.included 1) .unbounded rfl).1, removed (.included 2) .unbounded rfl⟩

theorem neighbours_refines : ∃ pmap, neighbours.foldlM Op.apply new = .ok pmap ∧
    (∀ key value, ∃ next, pmap.insert key value =
        .ok ((pmap.abstraction.insert key value).1, next) ∧
      next.abstraction = (pmap.abstraction.insert key value).2) ∧
    (∀ key, ∃ next, pmap.remove key = .ok ((pmap.abstraction.remove key).1, next) ∧
      next.abstraction = (pmap.abstraction.remove key).2) ∧
    (∃ next, pmap.insertRange (.excluded 2) (.included 4) = .ok next ∧
      pmap.abstraction.insertRange (.excluded 2) (.included 4) = .ok next.abstraction) ∧
    ∃ items next, pmap.removeRange (.included 2) .unbounded = .ok (items, next) ∧
      pmap.abstraction.removeRange (.included 2) .unbounded =
        .ok (items.map Prod.snd, next.abstraction) := by
  obtain ⟨pmap, ran, inserted, removed, ranges⟩ := run_refines neighbours_valid
  exact ⟨pmap, ran, inserted, removed, (ranges (.excluded 2) (.included 4) rfl).1,
    (ranges (.included 2) .unbounded rfl).2⟩

/-- Both keys of the range are covered, but `range` asks for what is between them. -/
theorem neighbours_range : ∃ pmap, neighbours.foldlM Op.apply new = .ok pmap ∧
    rangePoints (.included 1) (.included 2) ⊆ pmap.intervalTree.points ∧
    pmap.range (.included 1) (.included 2) = .ok (.error [(.excluded 1, .excluded 2)]) := by
  obtain ⟨pmap, ran, consistent⟩ := run_consistent neighbours_valid
  have isMap : pmap = ⟨⟨[(1, 10), (2, 20)], by unfold SortedMap.Sorted; decide⟩,
      ⟨[.lowerInclusive 1, .upperInclusive 1, .lowerInclusive 2, .upperInclusive 2]⟩, 0⟩ :=
    Except.ok.inj (ran.symm.trans rfl)
  refine ⟨pmap, ran, fun key inside => ?_, by rw [isMap]; rfl⟩
  have bounds : 1 ≤ key ∧ key ≤ 2 := by
    simpa [rangePoints_eq, Cut.between, Cut.IsBelow, lowerCut, upperCut] using inside
  rw [← get_isSome_iff consistent, isMap]
  obtain rfl | rfl : key = 1 ∨ key = 2 := (by omega) <;> rfl

end PartialMap

end ReadySet.MergingIntervalTree
