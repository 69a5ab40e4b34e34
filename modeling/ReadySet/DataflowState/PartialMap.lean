import ReadySet.Library.SortedMap
import ReadySet.Dataflow.Processing

/-!
Owns the partial map (`PartialMap`): an ordered map that also knows which
ranges of keys it covers, so that an absent key is either known to be empty or
unknown.

The interval tree is taken as the set of points it covers. Does not own the
tree of bounds that represents this set.
-/

namespace ReadySet.DataflowState

open Data Library Dataflow

universe u v

variable {κ : Type u} {β : Type v}

/-! ## Ranges -/

section

variable (cmp : κ → κ → Ordering)

/-- `RangeBounds::contains`. -/
def rangeContains (lower upper : Bound κ) (key : κ) : Bool :=
  (match lower with
    | .included start => (cmp key start).isGE
    | .excluded start => (cmp key start).isGT
    | .unbounded => true) &&
  (match upper with
    | .included stop => (cmp key stop).isLE
    | .excluded stop => (cmp key stop).isLT
    | .unbounded => true)

/-- `check_range`: panics on a range that is empty or decreasing. -/
def checkRange : Bound κ → Bound κ → ReadySetResult PUnit.{u + 1}
  | .excluded start, .excluded stop => strict start stop
  | .excluded start, .included stop => strict start stop
  | .included start, .excluded stop => strict start stop
  | .included start, .included stop => notGreater start stop
  | .unbounded, _ => .ok ⟨⟩
  | _, .unbounded => .ok ⟨⟩
where
  notGreater (start stop : κ) : ReadySetResult PUnit.{u + 1} :=
    if (cmp start stop).isGT then
      .error (.panicked "range start is greater than range end in IntervalTreeSet")
    else .ok ⟨⟩
  strict (start stop : κ) : ReadySetResult PUnit.{u + 1} :=
    if cmp start stop = .eq then
      .error (.panicked "range start and end are equal and not inclusive in IntervalTreeSet")
    else notGreater start stop

end

/-- `IntervalTreeSet`, as the points it covers. -/
structure IntervalTreeSet (κ : Type u) where
  covers : κ → Bool := fun _ => false

namespace IntervalTreeSet

variable (cmp : κ → κ → Ordering) (tree : IntervalTreeSet κ)

def containsPoint (key : κ) : Bool := tree.covers key

def insertInterval (lower upper : Bound κ) : ReadySetResult (IntervalTreeSet κ) := do
  checkRange cmp lower upper
  return ⟨fun key => rangeContains cmp lower upper key || tree.covers key⟩

def insertPoint (point : κ) : IntervalTreeSet κ :=
  ⟨fun key => cmp key point == .eq || tree.covers key⟩

def removeInterval (lower upper : Bound κ) : ReadySetResult (IntervalTreeSet κ) := do
  checkRange cmp lower upper
  return ⟨fun key => !rangeContains cmp lower upper key && tree.covers key⟩

def removePoint (point : κ) : IntervalTreeSet κ :=
  ⟨fun key => !(cmp key point == .eq) && tree.covers key⟩

end IntervalTreeSet

open IntervalTreeSet (containsPoint insertInterval insertPoint removeInterval removePoint)

/-! ## The map -/

structure PartialMap (κ : Type u) (β : Type v) (cmp : κ → κ → Ordering) where
  map : BTreeMap κ β cmp := ∅
  intervalTree : IntervalTreeSet κ := {}

namespace PartialMap

variable {cmp : κ → κ → Ordering} (pmap : PartialMap κ β cmp)

def numKeys : Nat := pmap.map.entries.length

def keys : List κ := pmap.map.entries.map Prod.fst

def values : List β := pmap.map.entries.map Prod.snd

/-- `PartialMap::get`: a covered key without an entry has the default value. -/
def get [Inhabited β] (key : κ) : Option β :=
  match pmap.map.get? key with
  | none => if pmap.intervalTree.containsPoint key then some default else none
  | some value => some value

def remove (key : κ) : Option β × PartialMap κ β cmp :=
  (pmap.map.get? key,
    { map := pmap.map.remove key
      intervalTree := pmap.intervalTree.removePoint cmp key })

/-- `PartialMap::remove_range`, with the values it drains. -/
def removeRange (lower upper : Bound κ) : ReadySetResult (List β × PartialMap κ β cmp) :=
  match pmap.intervalTree.removeInterval cmp lower upper with
  | .error error => .error error
  | .ok intervalTree =>
    let inside : κ → Bool := rangeContains cmp lower upper
    .ok ((pmap.map.retain inside).entries.map Prod.snd,
      { map := pmap.map.retain fun key => !inside key, intervalTree })

def insertRange (lower upper : Bound κ) : ReadySetResult (PartialMap κ β cmp) :=
  match pmap.intervalTree.insertInterval cmp lower upper with
  | .error error => .error error
  | .ok intervalTree => .ok { pmap with intervalTree }

variable [Std.TransCmp cmp] [Std.LawfulEqCmp cmp]

def insert (key : κ) (value : β) : Option β × PartialMap κ β cmp :=
  (pmap.map.get? key,
    { map := pmap.map.insert key value
      intervalTree := pmap.intervalTree.insertPoint cmp key })

/-- `PartialMap::get_mut`, and `entry` on an occupied entry: a covered key gets
an entry. -/
def getMut [Inhabited β] (key : κ) : Option β × PartialMap κ β cmp :=
  match pmap.map.get? key with
  | some value => (some value, pmap)
  | none =>
    if pmap.intervalTree.containsPoint key then
      (some default, { pmap with map := pmap.map.insert key default })
    else (none, pmap)

/-- A write through the reference that `get_mut` gives. -/
def write (key : κ) (value : β) : PartialMap κ β cmp :=
  { pmap with map := pmap.map.insert key value }

/-! ## What the operations do to the values -/

section

variable [DecidableEq κ] [Inhabited β] {pmap} {lower upper : Bound κ} {key : κ}

omit [Std.TransCmp cmp] [Std.LawfulEqCmp cmp] [DecidableEq κ] in
theorem get_eq (key : κ) : pmap.get key =
    (pmap.map.get? key).or (if pmap.intervalTree.covers key then some default else none) := by
  rw [get]
  cases pmap.map.get? key <;> rfl

theorem get_insert (key other : κ) (value : β) :
    (pmap.insert key value).2.get other = if other = key then some value else pmap.get other := by
  rw [get_eq, get_eq, insert, BTreeMap.get?_insert]
  by_cases same : other = key
  · simp [same]
  · simp [insertPoint, same]

theorem get_write (key other : κ) (value : β) :
    (pmap.write key value).get other = if other = key then some value else pmap.get other := by
  rw [get_eq, get_eq, write, BTreeMap.get?_insert]
  by_cases same : other = key <;> simp [same]

theorem get_remove (key other : κ) :
    (pmap.remove key).2.get other = if other = key then none else pmap.get other := by
  rw [get_eq, get_eq, remove, BTreeMap.get?_remove]
  by_cases same : other = key
  · subst same
    simp [removePoint]
  · simp [removePoint, same]

omit [Std.TransCmp cmp] [Std.LawfulEqCmp cmp] [DecidableEq κ] in
theorem get_insertRange {inserted : PartialMap κ β cmp}
    (succeeds : pmap.insertRange lower upper = .ok inserted) (other : κ) :
    inserted.get other =
      if rangeContains cmp lower upper other then some ((pmap.get other).getD default)
      else pmap.get other := by
  rw [insertRange, insertInterval] at succeeds
  cases valid : checkRange cmp lower upper with
  | error error => simp [valid] at succeeds
  | ok _ =>
    obtain rfl := by simpa [valid] using succeeds
    rw [get_eq, get_eq]
    by_cases inside : rangeContains cmp lower upper other = true
    · cases pmap.map.get? other <;> simp [inside]
      split <;> rfl
    · simp [inside]

omit [DecidableEq κ] in
theorem get_removeRange {values : List β} {rest : PartialMap κ β cmp}
    (succeeds : pmap.removeRange lower upper = .ok (values, rest)) (other : κ) :
    rest.get other = if rangeContains cmp lower upper other then none else pmap.get other := by
  rw [removeRange, removeInterval] at succeeds
  cases valid : checkRange cmp lower upper with
  | error error => simp [valid] at succeeds
  | ok _ =>
    obtain ⟨-, rfl⟩ := by simpa [valid] using succeeds
    rw [get_eq, get_eq, BTreeMap.get?_retain]
    by_cases inside : rangeContains cmp lower upper other = true <;> simp [inside]

omit [DecidableEq κ] in
theorem getMut_fst (key : κ) : (pmap.getMut key).1 = pmap.get key := by
  rw [getMut, get_eq]
  cases pmap.map.get? key with
  | none =>
    by_cases covered : pmap.intervalTree.covers key = true <;>
      simp [containsPoint, covered]
  | some value => rfl

theorem get_getMut (key other : κ) : (pmap.getMut key).2.get other = pmap.get other := by
  rw [getMut]
  cases absent : pmap.map.get? key with
  | some value => rfl
  | none =>
    by_cases covered : pmap.intervalTree.covers key = true
    · rw [get_eq, get_eq]
      by_cases same : other = key
      · simp [containsPoint, covered, BTreeMap.get?_insert, same, absent]
      · simp [containsPoint, covered, BTreeMap.get?_insert, same]
    · simp [containsPoint, covered]

omit [DecidableEq κ] in
theorem getMut_of_none (hole : pmap.get key = none) : pmap.getMut key = (none, pmap) := by
  rw [get_eq, Option.or_eq_none_iff] at hole
  obtain ⟨absent, uncovered⟩ := hole
  have notCovered : ¬ pmap.intervalTree.covers key = true := by
    intro covered
    rw [if_pos covered] at uncovered
    contradiction
  simp [getMut, absent, containsPoint, notCovered]

omit [DecidableEq κ] in
theorem getMut_of_some {value : β} (filled : pmap.get key = some value) :
    pmap.getMut key = (some value, (pmap.getMut key).2) := by
  rw [← filled, ← getMut_fst]

end

end PartialMap

end ReadySet.DataflowState
