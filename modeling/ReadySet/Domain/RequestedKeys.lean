import ReadySet.DataflowState.KeyedState
import ReadySet.MergingIntervalTree.Overlaps

/-!
Owns the keys that a reader has requested and not yet received (`RequestedKeys`): a
set of points or an interval tree. A request goes on only with the part that is not
outstanding, and is outstanding afterwards (`ExtendLaw`). A reply takes its part off.
`filter_keys` keeps the part of some keys that is outstanding, except where the overlap
iterator is wrong (`FilterCondition`).

A hash set of key comparisons is the list of its elements in some order. What a set is
collected from keeps its duplicates.
-/

namespace ReadySet.Domain

open Data Dataflow Library MergingIntervalTree KeyComparison
open DataflowState (IndexType checkRange rangeContains)

universe u

variable {V : Type u} {key : KeyComparison V}

/-! ## The order of keys -/

section

variable [LinearOrder V]

theorem key_cmp_eq : (Key.cmp : Key V → Key V → Ordering) = compare := by
  rw [Key.cmp, DfValue.cmp_eq]
  rfl

instance : Std.TransOrd (Key V) := by
  unfold Std.TransOrd
  rw [← key_cmp_eq]
  infer_instance

instance : Std.LawfulEqOrd (Key V) := by
  unfold Std.LawfulEqOrd
  rw [← key_cmp_eq]
  infer_instance

/-- Keys are ordered as `Vec` orders them. -/
instance instLinearOrderKey : LinearOrder (Key V) := linearOrderOf

end

/-! ## Requested keys -/

inductive RequestedKeys (V : Type u) where
  | points (requested : Finset (Key V))
  | ranges (requested : IntervalTreeSet (Key V))

namespace RequestedKeys

variable [LinearOrder V]

def new : IndexType → RequestedKeys V
  | .hashMap => points ∅
  | .bTreeMap => ranges {}

def expectEqual (key : KeyComparison V) : ReadySetResult (Key V) :=
  match key.equalKey with
  | some key => .ok key
  | none => .error (.panicked "RequestedKeys::Points received range key")

/-- The `retain` of `RequestedKeys::extend`, which inserts every key and keeps the new ones. -/
def retainInserted (requested : Finset (Key V)) :
    List (KeyComparison V) → ReadySetResult (List (KeyComparison V) × Finset (Key V))
  | [] => .ok ([], requested)
  | key :: keys => do
      let point ← expectEqual key
      let (kept, after) ← retainInserted (insert point requested) keys
      return (if point ∈ requested then kept else key :: kept, after)

/-- The `flat_map` of `RequestedKeys::extend`, which takes differences and inserts. -/
def differences (requested : IntervalTreeSet (Key V)) :
    List (KeyComparison V) → ReadySetResult (List (KeyComparison V) × IntervalTreeSet (Key V))
  | [] => .ok ([], requested)
  | key :: keys => do
      let diff ← requested.getIntervalDifference key.startBound key.endBound
      let inserted ← requested.insertInterval key.startBound key.endBound
      let (later, after) ← differences inserted keys
      return (diff.map KeyComparison.fromRange ++ later, after)

/-- `RequestedKeys::extend`, with what is left of the keys. -/
def extend (keys : List (KeyComparison V)) :
    RequestedKeys V → ReadySetResult (List (KeyComparison V) × RequestedKeys V)
  | points requested => do
      let (kept, after) ← retainInserted requested keys
      return (kept, points after)
  | ranges requested => do
      let (kept, after) ← differences requested keys
      return (kept, ranges after)

/-- The `retain` of `RequestedKeys::filter_keys`. -/
def retainContained (requested : Finset (Key V)) :
    List (KeyComparison V) → ReadySetResult (List (KeyComparison V))
  | [] => .ok []
  | key :: keys => do
      let point ← expectEqual key
      let kept ← retainContained requested keys
      return if point ∈ requested then key :: kept else kept

/-- `RequestedKeys::filter_keys`, with what is left of the keys. -/
def filterKeys (keys : List (KeyComparison V)) :
    RequestedKeys V → ReadySetResult (List (KeyComparison V))
  | points requested => retainContained requested keys
  | ranges requested => do
      let overlaps ← keys.mapM fun key => requested.getIntervalOverlaps key.startBound key.endBound
      return overlaps.flatten.map KeyComparison.fromRange

def remove (key : KeyComparison V) : RequestedKeys V → ReadySetResult (RequestedKeys V)
  | points requested => do
      let point ← expectEqual key
      return points (requested.erase point)
  | ranges requested => do
      let removed ← requested.removeInterval key.startBound key.endBound
      return ranges removed

end RequestedKeys

open RequestedKeys (differences expectEqual filterKeys ranges retainContained retainInserted)

/-! ## Keys as sets of points -/

section

variable [LinearOrder V]

def denotes (keys : List (KeyComparison V)) : Set (Key V) :=
  {point | ∃ key ∈ keys, key.contains point = true}

variable {point : Key V}

theorem contains_iff :
    key.contains point = true ↔ point ∈ rangePoints key.startBound key.endBound := by
  change _ ↔ rangeContains compare _ _ _ = true
  rw [← key_cmp_eq]
  cases key with
  | equal key =>
    simp only [contains, startBound, endBound, rangeContains]
    cases Key.cmp point key <;> simp
  | range lower upper => cases lower <;> cases upper <;> rfl

theorem contains_fromRange {item : Bound (Key V) × Bound (Key V)} :
    (fromRange item).contains point = true ↔ point ∈ rangePoints item.1 item.2 := by
  rw [contains_iff]
  unfold fromRange
  split
  · next key1 key2 =>
      split
      · next same =>
          rw [same]
          rfl
      · rfl
  · rfl

theorem contains_of_equalKey (isPoint : key.equalKey = some point)
    (other : Key V) : key.contains other = true ↔ other = point := by
  unfold equalKey at isPoint
  split at isPoint
  · obtain rfl := Option.some.inj isPoint
    exact contains_equal
  · next key key2 =>
      split at isPoint
      · next same =>
          obtain rfl := Option.some.inj isPoint
          rw [← same, ← contains_equal, contains_iff, contains_iff]
          rfl
      · nomatch isPoint
  · nomatch isPoint

@[simp] theorem denotes_nil : denotes ([] : List (KeyComparison V)) = ∅ := by
  simp [denotes]

theorem denotes_cons (key : KeyComparison V) (keys : List (KeyComparison V)) :
    denotes (key :: keys) = {point | key.contains point = true} ∪ denotes keys :=
  Set.ext fun _ => List.exists_mem_cons_iff _ _ _

theorem denotes_singleton (key : KeyComparison V) :
    denotes [key] = {point | key.contains point = true} := by
  rw [denotes_cons, denotes_nil, Set.union_empty]

theorem denotes_append (first second : List (KeyComparison V)) :
    denotes (first ++ second) = denotes first ∪ denotes second := by
  ext point
  simp [denotes, or_and_right, exists_or]

theorem denotes_map_fromRange (items : List (Bound (Key V) × Bound (Key V))) :
    denotes (items.map fromRange) = unionOf items := by
  simp [denotes, unionOf, contains_fromRange]

end

/-! ## Requests -/

section

variable [LinearOrder V]

/-- A request goes on with the part that is not outstanding, without a point twice, and is
outstanding afterwards. -/
structure ExtendLaw (before : Set (Key V)) (keys kept : List (KeyComparison V))
    (after : Set (Key V)) : Prop where
  kept_eq : denotes kept = denotes keys \ before
  disjoint : kept.Pairwise fun left right =>
    Disjoint {point | left.contains point = true} {point | right.contains point = true}
  after_eq : after = before ∪ denotes keys

theorem extendLaw_nil (before : Set (Key V)) : ExtendLaw before [] [] before :=
  ⟨by simp, List.Pairwise.nil, by simp⟩

theorem ExtendLaw.cons {before middle after : Set (Key V)}
    {keys first second : List (KeyComparison V)} (here : ExtendLaw before [key] first middle)
    (later : ExtendLaw middle keys second after) :
    ExtendLaw before (key :: keys) (first ++ second) after := by
  have single := denotes_singleton key
  refine ⟨?_, List.pairwise_append.mpr ⟨here.disjoint, later.disjoint, ?_⟩, ?_⟩
  · rw [denotes_append, here.kept_eq, later.kept_eq, here.after_eq, denotes_cons key keys, single]
    ext point
    simp only [Set.mem_union, Set.mem_sdiff]
    tauto
  · -- What is kept of the later keys is not in the first one.
    intro left isLeft right isRight
    refine Set.disjoint_left.mpr fun point inLeft inRight => ?_
    have isFirst : point ∈ denotes first := ⟨left, isLeft, inLeft⟩
    have isSecond : point ∈ denotes second := ⟨right, isRight, inRight⟩
    rw [here.kept_eq] at isFirst
    rw [later.kept_eq, here.after_eq] at isSecond
    exact isSecond.2 (.inr isFirst.1)
  · rw [later.after_eq, here.after_eq, denotes_cons key keys, single, Set.union_assoc]

theorem extendLaw_point (requested : Finset (Key V)) {point : Key V}
    (isPoint : key.equalKey = some point) :
    ExtendLaw ↑requested [key] (if point ∈ requested then [] else [key])
      ↑(insert point requested) := by
  have single : denotes [key] = {point} := by
    rw [denotes_singleton]
    exact Set.ext (contains_of_equalKey isPoint)
  refine ⟨?_, by split <;> simp, by rw [single, Finset.coe_insert, Set.union_singleton]⟩
  ext other
  split
  · next isRequested =>
      rw [single]
      refine ⟨nofun, ?_⟩
      rintro ⟨rfl, notRequested⟩
      exact absurd isRequested notRequested
  · next notRequested =>
      rw [single]
      refine ⟨?_, And.left⟩
      rintro rfl
      exact ⟨rfl, notRequested⟩

theorem extendLaw_range {requested : IntervalTreeSet (Key V)} (wf : requested.WellFormed)
    (checked : checkRange compare key.startBound key.endBound = .ok ⟨⟩) :
    ∃ diff inserted, requested.getIntervalDifference key.startBound key.endBound = .ok diff ∧
      requested.insertInterval key.startBound key.endBound = .ok inserted ∧
      inserted.WellFormed ∧
      ExtendLaw requested.points [key] (diff.map fromRange) inserted.points := by
  have less := checkRange_ok_iff.mp checked
  obtain ⟨diff, isDiff, ascending, union⟩ := wf.getIntervalDifference_spec less
  obtain ⟨inserted, isInserted, insertedWellFormed, points⟩ :=
    IntervalTreeSet.insertInterval_spec less wf
  have single : denotes [key] = Cut.between (lowerCut key.startBound) (upperCut key.endBound) := by
    rw [denotes_singleton, ← rangePoints_eq]
    exact Set.ext fun _ => contains_iff
  refine ⟨diff, inserted, isDiff, isInserted, insertedWellFormed, ?_, ?_, by rw [single, points]⟩
  · rw [denotes_map_fromRange, union, single]
  · refine List.pairwise_map.mpr (ascending.disjoint.imp fun {left right} apart => ?_)
    simpa only [contains_fromRange, Set.ofPred_mem_eq] using apart

theorem retainInserted_spec (keys : List (KeyComparison V))
    (points : ∀ key ∈ keys, key.equalKey.isSome = true) (requested : Finset (Key V)) :
    ∃ kept after, retainInserted requested keys = .ok (kept, after) ∧
      ExtendLaw ↑requested keys kept ↑after := by
  induction keys generalizing requested with
  | nil => exact ⟨[], requested, rfl, extendLaw_nil _⟩
  | cons key keys ih =>
    obtain ⟨point, isPoint⟩ := Option.isSome_iff_exists.mp (points key List.mem_cons_self)
    obtain ⟨kept, after, isKept, law⟩ := ih
      (fun other mem => points other (List.mem_cons_of_mem _ mem)) (insert point requested)
    have whole := (extendLaw_point requested isPoint).cons law
    refine ⟨_, after, ?_, whole⟩
    rw [retainInserted, expectEqual, isPoint]
    simp only [isKept, ok_bind]
    split <;> rfl

theorem differences_spec (keys : List (KeyComparison V))
    (checked : ∀ key ∈ keys, checkRange compare key.startBound key.endBound = .ok ⟨⟩)
    {requested : IntervalTreeSet (Key V)} (wf : requested.WellFormed) :
    ∃ kept after, differences requested keys = .ok (kept, after) ∧
      after.WellFormed ∧ ExtendLaw requested.points keys kept after.points := by
  induction keys generalizing requested with
  | nil => exact ⟨[], requested, rfl, wf, extendLaw_nil _⟩
  | cons key keys ih =>
    obtain ⟨diff, inserted, isDiff, isInserted, insertedWellFormed, here⟩ :=
      extendLaw_range wf (checked key List.mem_cons_self)
    obtain ⟨kept, after, isKept, afterWellFormed, law⟩ := ih
      (fun other mem => checked other (List.mem_cons_of_mem _ mem)) insertedWellFormed
    refine ⟨_, after, ?_, afterWellFormed, here.cons law⟩
    rw [differences, isDiff]
    simp only [isInserted, isKept, ok_bind]
    rfl

end

/-! ## Filtering -/

section

variable [LinearOrder V]

theorem retainContained_spec (keys : List (KeyComparison V))
    (points : ∀ key ∈ keys, key.equalKey.isSome = true) (requested : Finset (Key V)) :
    ∃ kept, retainContained requested keys = .ok kept ∧
      denotes kept = denotes keys ∩ ↑requested := by
  induction keys with
  | nil => exact ⟨[], rfl, by simp⟩
  | cons key keys ih =>
    obtain ⟨point, isPoint⟩ := Option.isSome_iff_exists.mp (points key List.mem_cons_self)
    obtain ⟨kept, isKept, law⟩ := ih fun other mem => points other (List.mem_cons_of_mem _ mem)
    have single : {other | key.contains other = true} = {point} :=
      Set.ext (contains_of_equalKey isPoint)
    refine ⟨if point ∈ requested then key :: kept else kept, ?_, ?_⟩
    · rw [retainContained, expectEqual, isPoint]
      simp only [isKept]
      rfl
    · rw [denotes_cons, single, Set.union_inter_distrib_right, ← law]
      split
      · next isRequested =>
          rw [denotes_cons, single, Set.inter_eq_left.mpr (by simpa using isRequested)]
      · next notRequested =>
          rw [Set.singleton_inter_eq_empty.mpr (by simpa using notRequested), Set.empty_union]

/-- No key ends with a value that an outstanding interval ends just before, and every
outstanding point of the keys is in a key with an end, or in one that is outstanding as a
whole. -/
def FilterCondition (requested : IntervalTreeSet (Key V)) (keys : List (KeyComparison V)) : Prop :=
  (∀ key ∈ keys, ∀ value, key.endBound = .included value → lowerCut key.startBound < .before value →
    .upperExclusive value ∉ requested.boundSet) ∧
  ∀ point ∈ denotes keys ∩ requested.points, ∃ key ∈ keys, key.contains point = true ∧
    (key.endBound ≠ .unbounded ∨ requested.coversInterval key.startBound key.endBound = .ok true)

section

variable {requested : IntervalTreeSet (Key V)} (wf : requested.WellFormed)

include wf

theorem getIntervalOverlaps_spec
    (checked : checkRange compare key.startBound key.endBound = .ok ⟨⟩) :
    ∃ items, requested.getIntervalOverlaps key.startBound key.endBound = .ok items ∧
      ∀ point, point ∈ unionOf items ↔ key.contains point = true ∧
        if key.endBound = .unbounded then
          requested.coversInterval key.startBound key.endBound = .ok true
        else point ∈ requested.points ∨ requested.EndsBefore key.startBound key.endBound point := by
  by_cases bounded : key.endBound = .unbounded
  · rw [bounded]
    rcases wf.getIntervalOverlaps_unbounded key.startBound with
      ⟨covers, collected⟩ | ⟨covers, collected⟩
    · refine ⟨_, collected, fun point => ?_⟩
      rw [mem_unionOf_cons, ← rangePoints_eq, contains_iff, bounded]
      simp [unionOf, covers]
    · exact ⟨_, collected, fun point => by simp [unionOf, covers]⟩
  · obtain ⟨items, collected, -, union⟩ :=
      wf.getIntervalOverlaps_bounded (checkRange_ok_iff.mp checked) bounded
    refine ⟨items, collected, fun point => ?_⟩
    rw [union, if_neg bounded, contains_iff, rangePoints_eq]

/-- The requested parts of ranges are kept exactly under the condition. -/
theorem overlaps_spec (keys : List (KeyComparison V))
    (checked : ∀ key ∈ keys, checkRange compare key.startBound key.endBound = .ok ⟨⟩) :
    ∃ kept, (ranges requested).filterKeys keys = .ok kept ∧
      (denotes kept = denotes keys ∩ requested.points ↔ FilterCondition requested keys) := by
  obtain ⟨overlaps, isOverlaps, each⟩ := exists_mapM_iff.mpr fun key isKey =>
    getIntervalOverlaps_spec wf (checked key isKey)
  refine ⟨overlaps.flatten.map fromRange, ?_, ?_⟩
  · rw [filterKeys, isOverlaps]
    rfl
  have union (point : Key V) : point ∈ denotes (overlaps.flatten.map fromRange) ↔
      ∃ key ∈ keys, key.contains point = true ∧ if key.endBound = .unbounded then
        requested.coversInterval key.startBound key.endBound = .ok true
      else point ∈ requested.points ∨ requested.EndsBefore key.startBound key.endBound point := by
    rw [denotes_map_fromRange]
    constructor
    · rintro ⟨item, isItem, inItem⟩
      obtain ⟨items, isItems, isItem⟩ := List.mem_flatten.mp isItem
      obtain ⟨key, isKey, ofKey⟩ := exists_left_of_forall₂ each isItems
      exact ⟨key, isKey, (ofKey point).mp ⟨item, isItem, inItem⟩⟩
    · rintro ⟨key, isKey, ofPoint⟩
      obtain ⟨items, isItems, ofKey⟩ := exists_right_of_forall₂ each isKey
      obtain ⟨item, isItem, inItem⟩ := (ofKey point).mpr ofPoint
      exact ⟨item, List.mem_flatten.mpr ⟨items, isItems, isItem⟩, inItem⟩
  constructor
  · intro isExact
    refine ⟨fun key isKey value isStop above stored => ?_, fun point outstanding => ?_⟩
    · -- The value would be kept, and is not outstanding.
      have inKey : key.contains value = true := by
        rw [contains_iff, rangePoints_eq, isStop]
        exact ⟨above.le, by simp [Cut.IsBelow, upperCut]⟩
      have isKept := (union value).mpr ⟨key, isKey, inKey, by
        rw [if_neg (by simp [isStop])]
        exact .inr ⟨isStop, stored, above⟩⟩
      rw [isExact] at isKept
      exact wf.not_mem_of_upperExclusive stored isKept.2
    · rw [← isExact] at outstanding
      obtain ⟨key, isKey, inKey, kind⟩ := (union point).mp outstanding
      refine ⟨key, isKey, inKey, ?_⟩
      by_cases bounded : key.endBound = .unbounded
      · exact .inr (by rwa [if_pos bounded] at kind)
      · exact .inl bounded
  · rintro ⟨noValue, reached⟩
    ext point
    rw [union]
    constructor
    · rintro ⟨key, isKey, inKey, kind⟩
      refine ⟨⟨key, isKey, inKey⟩, ?_⟩
      by_cases bounded : key.endBound = .unbounded
      · rw [if_pos bounded] at kind
        refine IntervalTreeSet.mem_points_of_coversInterval wf
          (checkRange_ok_iff.mp (checked key isKey)) kind point ?_
        rwa [← rangePoints_eq, ← contains_iff]
      · rw [if_neg bounded] at kind
        refine kind.resolve_right ?_
        rintro ⟨isStop, stored, above⟩
        exact noValue key isKey point isStop above stored
    · intro outstanding
      obtain ⟨key, isKey, inKey, kind⟩ := reached point outstanding
      refine ⟨key, isKey, inKey, ?_⟩
      split
      · next bounded => exact kind.resolve_left (not_not.mpr bounded)
      · exact .inl outstanding.2

end

end

/-! ## Runs -/

/-- What is done to the requested keys. -/
inductive RequestStep (V : Type u) where
  | extend (keys : List (KeyComparison V))
  | filterKeys (keys : List (KeyComparison V))
  | remove (key : KeyComparison V)

namespace RequestStep

variable [LinearOrder V]

/-- A step, with the keys that are left. -/
def apply (requested : RequestedKeys V) :
    RequestStep V → ReadySetResult (List (KeyComparison V) × RequestedKeys V)
  | extend keys => requested.extend keys
  | filterKeys keys => do
      let kept ← requested.filterKeys keys
      return (kept, requested)
  | remove key => do
      let removed ← requested.remove key
      return ([key], removed)

def keys : RequestStep V → List (KeyComparison V)
  | extend keys | filterKeys keys => keys
  | remove key => [key]

/-- A key that an index can be asked for: points, or also valid ranges. -/
def ValidKey (indexType : IndexType) (key : KeyComparison V) : Prop :=
  match indexType with
  | .hashMap => key.equalKey.isSome = true
  | .bTreeMap => checkRange compare key.startBound key.endBound = .ok ⟨⟩

end RequestStep

namespace RequestedKeys

variable [LinearOrder V]

def outstanding : RequestedKeys V → Set (Key V)
  | points requested => ↑requested
  | ranges requested => requested.points

/-- The representation fits the index. -/
def WellFormed : IndexType → RequestedKeys V → Prop
  | .hashMap, points _ => True
  | .bTreeMap, ranges requested => requested.WellFormed
  | _, _ => False

theorem new_wellFormed {indexType : IndexType} :
    (new indexType : RequestedKeys V).WellFormed indexType := by
  cases indexType with
  | hashMap => trivial
  | bTreeMap => exact wellFormed_empty

/-- What a step should do. -/
def Law (requested : RequestedKeys V) : RequestStep V → List (KeyComparison V) →
    RequestedKeys V → Prop
  | .extend keys, kept, after =>
    denotes kept = denotes keys \ requested.outstanding ∧
    (kept.Pairwise fun left right =>
      Disjoint {point | left.contains point = true} {point | right.contains point = true}) ∧
    after.outstanding = requested.outstanding ∪ denotes keys
  | .filterKeys keys, kept, after =>
    denotes kept = denotes keys ∩ requested.outstanding ∧
    after.outstanding = requested.outstanding
  | .remove key, _, after =>
    after.outstanding = requested.outstanding \ {point | key.contains point = true}

/-- A step does what it should. -/
def Lawful (requested : RequestedKeys V) (step : RequestStep V) : Prop :=
  ∃ kept after, step.apply requested = .ok (kept, after) ∧ requested.Law step kept after

/-- Ranges are filtered under the condition of the overlaps. -/
def Condition : RequestedKeys V → RequestStep V → Prop
  | ranges requested, .filterKeys keys => FilterCondition requested keys
  | _, _ => True

variable {step : RequestStep V}

/-- Requested points follow the law of sets. -/
theorem apply_points {requested : Finset (Key V)}
    (valid : ∀ key ∈ step.keys, key.equalKey.isSome = true) :
    ∃ kept after, step.apply (points requested) = .ok (kept, points after) ∧
      (points requested).Law step kept (points after) := by
  cases step with
  | extend keys =>
    obtain ⟨kept, after, isKept, law⟩ := retainInserted_spec keys valid requested
    refine ⟨kept, after, ?_, law.kept_eq, law.disjoint, law.after_eq⟩
    rw [RequestStep.apply, extend, isKept]
    rfl
  | filterKeys keys =>
    obtain ⟨kept, isKept, law⟩ := retainContained_spec keys valid requested
    refine ⟨kept, requested, ?_, law, rfl⟩
    rw [RequestStep.apply, filterKeys, isKept]
    rfl
  | remove key =>
    obtain ⟨point, isPoint⟩ := Option.isSome_iff_exists.mp (valid key List.mem_cons_self)
    refine ⟨[key], requested.erase point, ?_, ?_⟩
    · rw [RequestStep.apply, remove, expectEqual, isPoint]
      rfl
    · change ((requested.erase point : Finset (Key V)) : Set (Key V)) = _
      rw [Finset.coe_erase, show {other | key.contains other = true} = {point} from
        Set.ext (contains_of_equalKey isPoint)]
      rfl

/-- Requested ranges do exactly under the condition. -/
theorem apply_ranges {requested : IntervalTreeSet (Key V)} (wf : requested.WellFormed)
    (valid : ∀ key ∈ step.keys, checkRange compare key.startBound key.endBound = .ok ⟨⟩) :
    ∃ kept after, step.apply (ranges requested) = .ok (kept, ranges after) ∧ after.WellFormed ∧
      ((ranges requested).Law step kept (ranges after) ↔ (ranges requested).Condition step) := by
  cases step with
  | extend keys =>
    obtain ⟨kept, after, isKept, afterWellFormed, law⟩ := differences_spec keys valid wf
    refine ⟨kept, after, ?_, afterWellFormed,
      iff_of_true ⟨law.kept_eq, law.disjoint, law.after_eq⟩ trivial⟩
    rw [RequestStep.apply, extend, isKept]
    rfl
  | filterKeys keys =>
    obtain ⟨kept, isKept, law⟩ := overlaps_spec wf keys valid
    refine ⟨kept, requested, ?_, wf, (and_iff_left rfl).trans law⟩
    rw [RequestStep.apply, isKept]
    rfl
  | remove key =>
    have less := checkRange_ok_iff.mp (valid key List.mem_cons_self)
    obtain ⟨removed, isRemoved, removedWellFormed, points⟩ :=
      IntervalTreeSet.removeInterval_spec less wf
    refine ⟨[key], removed, ?_, removedWellFormed, iff_of_true ?_ trivial⟩
    · rw [RequestStep.apply, remove, isRemoved]
      rfl
    · change removed.points = _
      rw [points, ← rangePoints_eq]
      exact congrArg _ (Set.ext fun _ => contains_iff.symm)

variable {indexType : IndexType} {requested : RequestedKeys V}

theorem apply_spec (wf : requested.WellFormed indexType)
    (valid : ∀ key ∈ step.keys, RequestStep.ValidKey indexType key) :
    ∃ kept after, step.apply requested = .ok (kept, after) ∧ after.WellFormed indexType ∧
      (requested.Lawful step ↔ requested.Condition step) := by
  have lawful_iff {kept : List (KeyComparison V)} {after : RequestedKeys V}
      (applied : step.apply requested = .ok (kept, after)) :
      requested.Lawful step ↔ requested.Law step kept after := by
    refine ⟨fun ⟨others, other, isOther, law⟩ => ?_, fun law => ⟨kept, after, applied, law⟩⟩
    obtain ⟨rfl, rfl⟩ := ok_pair_inj (applied.symm.trans isOther)
    exact law
  match indexType, requested, wf with
  | .hashMap, .points requested, _ =>
    obtain ⟨kept, after, applied, law⟩ := apply_points valid
    refine ⟨kept, .points after, applied, trivial, (lawful_iff applied).trans ?_⟩
    exact iff_of_true law (by cases step <;> trivial)
  | .bTreeMap, .ranges requested, wf =>
    obtain ⟨kept, after, applied, afterWellFormed, law⟩ := apply_ranges wf valid
    exact ⟨kept, .ranges after, applied, afterWellFormed, (lawful_iff applied).trans law⟩

end RequestedKeys

/-- Every sequence of requests, filters and replies with keys that the index can be asked for
succeeds, and every step does what it should exactly when every filter meets its
condition. -/
theorem requestedKeys_lawful_iff [LinearOrder V] (indexType : IndexType)
    (steps : List (RequestStep V))
    (valid : ∀ step ∈ steps, ∀ key ∈ step.keys, RequestStep.ValidKey indexType key) :
    (∃ trace final,
      run RequestStep.apply (RequestedKeys.new indexType) steps = .ok (trace, final)) ∧
    (Along RequestStep.apply RequestedKeys.Lawful (RequestedKeys.new indexType) steps ↔
      Along RequestStep.apply RequestedKeys.Condition (RequestedKeys.new indexType) steps) := by
  suffices general : ∀ requested : RequestedKeys V, requested.WellFormed indexType →
      (∃ trace final, run RequestStep.apply requested steps = .ok (trace, final)) ∧
      (Along RequestStep.apply RequestedKeys.Lawful requested steps ↔
        Along RequestStep.apply RequestedKeys.Condition requested steps) from
    general _ (RequestedKeys.new_wellFormed)
  induction steps with
  | nil => exact fun requested _ => ⟨⟨[], requested, rfl⟩, Iff.rfl⟩
  | cons step steps ih =>
    intro requested wellFormed
    obtain ⟨kept, after, applied, afterWellFormed, lawful_iff⟩ :=
      RequestedKeys.apply_spec wellFormed (valid step List.mem_cons_self)
    obtain ⟨⟨trace, final, ran⟩, along_iff⟩ := ih
      (fun other member => valid other (List.mem_cons_of_mem _ member)) after afterWellFormed
    refine ⟨⟨_, final, run_cons_ok _ applied ran⟩, and_congr lawful_iff ?_⟩
    refine forall₃_congr fun others other isOther => ?_
    obtain ⟨rfl, rfl⟩ := ok_pair_inj (applied.symm.trans isOther)
    exact along_iff

namespace OneToFive

/-- The keys from one to five, without five. -/
def request : RequestStep ℕ :=
  .extend [.range (.included [.value 1]) (.excluded [.value 5])]

/-- The keys of the request that are outstanding after it. -/
def requested : IntervalTreeSet (Key ℕ) :=
  ⟨[.lowerInclusive [.value 1], .upperExclusive [.value 5]]⟩

theorem requested_eq : request.apply (RequestedKeys.new .bTreeMap) =
    .ok ([.range (.included [.value 1]) (.excluded [.value 5])], .ranges requested) := rfl

/-- Filtering up to four is right. -/
theorem upToFour_lawful :
    Along RequestStep.apply RequestedKeys.Lawful (RequestedKeys.new .bTreeMap)
      [request, .filterKeys [.range (.included [.value 3]) (.included [.value 4])]] := by
  have valid : ∀ step ∈ [request, .filterKeys [.range (.included [.value 3]) (.included [.value 4])]],
      ∀ key ∈ step.keys, RequestStep.ValidKey .bTreeMap key := by
    simp only [request, List.forall_mem_cons, RequestStep.keys]
    exact ⟨⟨rfl, nofun⟩, ⟨rfl, nofun⟩, nofun⟩
  refine (requestedKeys_lawful_iff .bTreeMap _ valid).2.mpr
    (along_cons _ trivial requested_eq (along_cons _ ?_ rfl trivial))
  refine ⟨?_, fun point outstanding => ?_⟩
  · intro key isKey value isStop _
    rw [List.mem_singleton.mp isKey] at isStop
    obtain rfl : [.value 4] = value := Bound.included.inj isStop
    decide
  · obtain ⟨key, isKey, inKey⟩ := outstanding.1
    refine ⟨key, isKey, inKey, .inl ?_⟩
    rw [List.mem_singleton.mp isKey]
    exact nofun

/-- Filtering up to five keeps five, which was not requested. -/
theorem upToFive_not_lawful :
    (RequestStep.filterKeys [.range (.included [.value 3]) (.included [.value 5])]).apply
        (.ranges requested) =
      .ok ([.range (.included [.value 3]) (.included [.value 5])], .ranges requested) ∧
    ¬Along RequestStep.apply RequestedKeys.Lawful (RequestedKeys.new .bTreeMap)
      [request, .filterKeys [.range (.included [.value 3]) (.included [.value 5])]] := by
  refine ⟨rfl, fun along => ?_⟩
  have lawful := (along.2 _ _ requested_eq).1
  have wellFormed : (RequestedKeys.ranges requested).WellFormed .bTreeMap :=
    wellFormed_of_run (show [Op.insertInterval (.included [.value 1]) (.excluded [.value 5])].foldlM
      Op.apply {} = .ok requested from rfl)
  have valid : ∀ key ∈ (RequestStep.filterKeys
      [.range (.included [.value 3]) (.included [.value 5])] : RequestStep ℕ).keys,
      RequestStep.ValidKey .bTreeMap key := by
    simp only [List.forall_mem_cons, RequestStep.keys]
    exact ⟨rfl, nofun⟩
  obtain ⟨-, -, -, -, lawful_iff⟩ := RequestedKeys.apply_spec wellFormed valid
  have less : lowerCut (.included ([.value 3] : Key ℕ)) < upperCut (.excluded [.value 5]) :=
    checkRange_ok_iff.mp rfl
  exact (lawful_iff.mp lawful).1 _ List.mem_cons_self [.value 5] rfl less (by decide)

end OneToFive

end ReadySet.Domain
