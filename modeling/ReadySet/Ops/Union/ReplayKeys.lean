import ReadySet.Ops.Union.Operator

/-!
Owns the order of the keys of buffered replays: `BufferedReplayKey::cmp` against the
order of their bounds. The arm for a range against a point takes the bounds the wrong
way round, and it is stated here for which pairs that makes no difference (`Agrees`).
-/

namespace ReadySet.Data

universe u v

section

variable {α : Type u} {β : Type v} {cmp other : α → α → Ordering}

theorem transCmp_on (ordered : Std.TransCmp cmp) {key : β → α} :
    Std.TransCmp fun left right => cmp (key left) (key right) where
  eq_swap := Std.OrientedCmp.eq_swap
  isLE_trans := Std.TransCmp.isLE_trans

theorem transCmp_then (ordered : Std.TransCmp cmp) (orderedThen : Std.TransCmp other) :
    Std.TransCmp fun left right => (cmp left right).then (other left right) :=
  inferInstanceAs (Std.TransCmp (compareLex cmp other))

end

variable {V : Type u} [LinearOrder V]

section

variable {least : Ordering} {left right : Option (Key V × Nat)}

theorem transCmp_cmpRanked (decided : least ≠ .eq) : Std.TransCmp (cmpRanked (V := V) least) := by
  have leaves : Std.TransCmp fun left right : Key V × Nat =>
      (Key.cmp left.1 right.1).then (compare left.2 right.2) :=
    transCmp_then (transCmp_on inferInstance) (transCmp_on inferInstance)
  refine { eq_swap := ?_, isLE_trans := ?_ }
  · rintro (_ | left) (_ | right)
    · rfl
    · simp [cmpRanked]
    · rfl
    · exact leaves.eq_swap
  · rintro (_ | left) (_ | middle) (_ | right) first second
    all_goals cases least <;> simp_all [cmpRanked]
    all_goals exact leaves.isLE_trans first second

theorem cmpRanked_eq_iff (decided : least ≠ .eq) :
    cmpRanked least left right = .eq ↔ left = right := by
  cases left <;> cases right <;> cases least <;> simp_all [cmpRanked, Prod.ext_iff]

end

variable {left right : Bound (Key V)}

theorem cmpStartbound_eq_iff : cmpStartbound left right = .eq ↔ left = right := by
  rw [cmpStartbound, cmpRanked_eq_iff (by decide)]
  cases left <;> cases right <;> simp [cmpStartbound.rank]

theorem cmpEndbound_eq_iff : cmpEndbound left right = .eq ↔ left = right := by
  rw [cmpEndbound, cmpRanked_eq_iff (by decide)]
  cases left <;> cases right <;> simp [cmpEndbound.rank]

def KeyComparison.cmpBounds (left right : KeyComparison V) : Ordering :=
  (cmpStartbound left.startBound right.startBound).then
    (cmpEndbound left.endBound right.endBound)

instance : Std.TransCmp (KeyComparison.cmpBounds (V := V)) :=
  transCmp_then
    (transCmp_on (transCmp_on (@transCmp_cmpRanked V _ .lt (by decide))))
    (transCmp_on (transCmp_on (@transCmp_cmpRanked V _ .gt (by decide))))

theorem KeyComparison.cmpBounds_eq_iff {left right : KeyComparison V} :
    left.cmpBounds right = .eq ↔ left.eq right = true := by
  rw [cmpBounds, Ordering.then_eq_eq, cmpStartbound_eq_iff, cmpEndbound_eq_iff, eq_iff]

end ReadySet.Data

namespace ReadySet.Ops

open Data Library

universe u

variable {V : Type u} [LinearOrder V]

/-- A range and a point compare the same with the range's bounds the wrong way round:
neither does the point lie inside, nor is one bound missing on the point's side. -/
def Agrees : KeyComparison V → Key V → Prop
  | .equal _, _ => True
  | .range .unbounded .unbounded, _ => True
  | .range .unbounded (.included bound), point | .range .unbounded (.excluded bound), point
  | .range (.included bound) .unbounded, point | .range (.excluded bound) .unbounded, point =>
    Key.cmp bound point = .lt
  | .range (.included start) (.included stop), point =>
    ¬ (Key.cmp start point = .lt ∧ Key.cmp stop point = .gt)
  | .range (.excluded start) (.included stop), point =>
    ¬ (Key.cmp start point = .lt ∧ Key.cmp stop point = .gt) ∧ ¬ (start = point ∧ stop = point)
  | .range (.included start) (.excluded stop), point =>
    ¬ (Key.cmp start point = .lt ∧ Key.cmp stop point ≠ .lt) ∧ ¬ (start = point ∧ stop = point)
  | .range (.excluded start) (.excluded stop), point =>
    ¬ (Key.cmp start point = .lt ∧ Key.cmp stop point ≠ .lt)

theorem cmp_of_isLE {start stop point : Key V} (valid : (Key.cmp start stop).isLE = true) :
    (Key.cmp start point = .gt → Key.cmp stop point = .gt) ∧
      (Key.cmp start point = .eq → Key.cmp stop point ≠ .lt) := by
  constructor
  · intro above
    have stopGE : (Key.cmp stop start).isGE = true := by
      rw [@Std.OrientedCmp.eq_swap _ Key.cmp, Ordering.isGE_swap]
      exact valid
    exact Std.TransCmp.gt_of_isGE_of_gt stopGE above
  · rintro same
    rw [Key.cmp_eq_iff.mp same, @Std.OrientedCmp.eq_swap _ Key.cmp] at valid
    intro below
    simp [below] at valid

theorem cmpReplayKeys_range_equal {lower upper : Bound (Key V)} {point : Key V}
    (valid : (KeyComparison.range lower upper).isValidRange = true) :
    cmpReplayKeys (.range lower upper) (.equal point) =
        (KeyComparison.range lower upper).cmpBounds (.equal point) ↔
      Agrees (.range lower upper) point := by
  rcases lower with start | start | _ <;> rcases upper with stop | stop | _ <;>
    simp only [cmpReplayKeys, KeyComparison.cmpBounds, KeyComparison.startBound,
      KeyComparison.endBound, cmpStartbound, cmpEndbound, cmpStartbound.rank, cmpEndbound.rank,
      cmpRanked, Agrees, KeyComparison.isValidRange] at valid ⊢
  case included.unbounded | excluded.unbounded =>
    cases Key.cmp start point <;> decide
  case unbounded.included | unbounded.excluded =>
    cases Key.cmp stop point <;> decide
  all_goals
    have between := @cmp_of_isLE V _ start stop point
      (by revert valid; cases Key.cmp start stop <;> decide)
    try rw [← Key.cmp_eq_iff, ← Key.cmp_eq_iff]
    revert between
    cases Key.cmp start point <;> cases Key.cmp stop point <;> decide

theorem cmpReplayKeys_eq {left right : KeyComparison V} (valid : left.isValidRange = true)
    (agrees : ∀ point, right = .equal point → Agrees left point) :
    cmpReplayKeys left right = left.cmpBounds right := by
  cases left with
  | equal left =>
    cases right with
    | equal right =>
      change Key.cmp left right = ((Key.cmp left right).then .eq).then ((Key.cmp left right).then .eq)
      cases Key.cmp left right <;> rfl
    | range lower upper => rfl
  | range lower upper =>
    cases right with
    | equal point => exact (cmpReplayKeys_range_equal valid).mpr (agrees point rfl)
    | range otherLower otherUpper => rfl

theorem cmpReplayKeys_eq_eq_iff {left right : KeyComparison V} :
    cmpReplayKeys left right = .eq ↔ left.cmpBounds right = .eq := by
  rw [KeyComparison.cmpBounds]
  cases left <;> cases right <;>
    simp [cmpReplayKeys, KeyComparison.startBound, KeyComparison.endBound, cmpStartbound_eq_iff,
      cmpEndbound_eq_iff, and_comm]

namespace BufferedReplayKey

/-- `BufferedReplayKey::eq`, as derived. -/
def eq (left right : BufferedReplayKey V) : Bool :=
  left.tag = right.tag ∧ left.key.eq right.key ∧
    left.requestingShard = right.requestingShard ∧ left.requestingReplica = right.requestingReplica

/-- The order of the tags, bounds, shards and replicas. -/
def cmpBounds (left right : BufferedReplayKey V) : Ordering :=
  (((compare left.tag right.tag).then (left.key.cmpBounds right.key)).then
    (compare left.requestingShard right.requestingShard)).then
    (compare left.requestingReplica right.requestingReplica)

instance : Std.TransCmp (cmpBounds (V := V)) :=
  transCmp_then (transCmp_then (transCmp_then (transCmp_on inferInstance)
    (transCmp_on inferInstance)) (transCmp_on inferInstance))
    (transCmp_on inferInstance)

variable {left right : BufferedReplayKey V}

theorem cmpBounds_eq_iff : left.cmpBounds right = .eq ↔ left.eq right = true := by
  simp [cmpBounds, eq, KeyComparison.cmpBounds_eq_iff, and_assoc]

/-- The keys are comparable without the bounds the wrong way round making a difference. -/
def Comparable (left right : BufferedReplayKey V) : Prop :=
  left.tag = right.tag → ∀ point, right.key = .equal point → Agrees left.key point

theorem cmp_eq_cmpBounds_iff (valid : left.key.isValidRange = true) :
    left.cmp right = left.cmpBounds right ↔ left.Comparable right := by
  constructor
  · intro same sameTag point isPoint
    by_contra disagrees
    have ne : cmpReplayKeys left.key right.key ≠ left.key.cmpBounds right.key := by
      intro same
      rw [isPoint] at same
      cases isKey : left.key with
      | equal key => exact disagrees (by rw [isKey]; trivial)
      | range lower upper =>
        rw [isKey] at same valid disagrees
        exact disagrees ((cmpReplayKeys_range_equal valid).mp same)
    -- Neither comparison leaves it to the shards and replicas.
    have decided : cmpReplayKeys left.key right.key ≠ .eq := by
      intro isEq
      exact ne (isEq.trans (cmpReplayKeys_eq_eq_iff.mp isEq).symm)
    have decidedBounds := mt cmpReplayKeys_eq_eq_iff.mpr decided
    rw [cmp, cmpBounds, compare_eq_iff_eq.mpr sameTag] at same
    revert same ne decided decidedBounds
    cases cmpReplayKeys left.key right.key <;> cases left.key.cmpBounds right.key <;> simp
  · intro comparable
    by_cases sameTag : left.tag = right.tag
    · rw [cmp, cmpBounds, cmpReplayKeys_eq valid (comparable sameTag)]
    · have decided : compare left.tag right.tag ≠ .eq := fun isEq =>
        sameTag (compare_eq_iff_eq.mp isEq)
      rw [cmp, cmpBounds]
      revert decided
      cases compare left.tag right.tag <;> simp

/-- The comparison is a total order on some keys, consistent with equality. -/
structure Ordered (keys : BufferedReplayKey V → Prop) : Prop where
  swap : ∀ left right, keys left → keys right → cmp left right = (cmp right left).swap
  trans : ∀ left middle right, keys left → keys middle → keys right →
    (cmp left middle).isLE = true → (cmp middle right).isLE = true → (cmp left right).isLE = true
  eq_iff : ∀ left right, keys left → keys right → (cmp left right = .eq ↔ left.eq right = true)

/-- **The order of replay keys.** On any keys with valid ranges the comparison is a total
order consistent with equality exactly when all of them are comparable. -/
theorem ordered_iff {keys : BufferedReplayKey V → Prop}
    (valid : ∀ replay, keys replay → replay.key.isValidRange = true) :
    Ordered keys ↔ ∀ left right, keys left → keys right → left.Comparable right := by
  constructor
  · intro ordered left right isLeft isRight sameTag point isPoint
    refine (cmp_eq_cmpBounds_iff (valid left isLeft)).mp ?_ sameTag point isPoint
    -- A point on the left is compared the right way round.
    have reversed : right.cmp left = right.cmpBounds left := by
      refine (cmp_eq_cmpBounds_iff (valid right isRight)).mpr fun _ _ _ => ?_
      rw [isPoint]
      trivial
    rw [ordered.swap left right isLeft isRight, reversed]
    exact Std.OrientedCmp.eq_swap.symm
  · intro comparable
    have same left right (isLeft : keys left) (isRight : keys right) :
        cmp left right = cmpBounds left right :=
      (cmp_eq_cmpBounds_iff (valid left isLeft)).mpr (comparable left right isLeft isRight)
    refine ⟨fun left right isLeft isRight => ?_,
      fun left middle right isLeft isMiddle isRight => ?_, fun left right isLeft isRight => ?_⟩
    · rw [same left right isLeft isRight, same right left isRight isLeft]
      exact Std.OrientedCmp.eq_swap
    · rw [same left middle isLeft isMiddle, same middle right isMiddle isRight,
        same left right isLeft isRight]
      exact Std.TransCmp.isLE_trans
    · rw [same left right isLeft isRight]
      exact cmpBounds_eq_iff

def oneToFive : BufferedReplayKey ℕ := ⟨0, .range (.included [.value 1]) (.included [.value 5]), 0, 0⟩

def point (value : ℕ) : BufferedReplayKey ℕ := ⟨0, .equal [.value value], 0, 0⟩

/-- Each of a range and a point inside it is greater than the other. -/
theorem three_and_oneToFive :
    (∀ replay ∈ [point 3, oneToFive], replay.key.isValidRange = true) ∧
      cmp oneToFive (point 3) = .gt ∧ cmp (point 3) oneToFive = .gt ∧
      ¬ Ordered (· ∈ [point 3, oneToFive]) := by
  refine ⟨by decide, by decide, by decide, fun ordered => ?_⟩
  exact absurd (ordered.swap oneToFive (point 3) (by decide) (by decide)) (by decide)

/-- A point above a range. -/
theorem ordered_seven_oneToFive : Ordered (· ∈ [point 7, oneToFive]) := by
  refine (ordered_iff (by decide)).mpr fun left right isLeft isRight _ key isPoint => ?_
  rcases List.mem_pair.mp isLeft with rfl | rfl
  · trivial
  · rcases List.mem_pair.mp isRight with rfl | rfl
    · rw [← KeyComparison.equal.inj isPoint]
      change ¬ (Key.cmp [.value 1] [.value 7] = .lt ∧ Key.cmp [.value 5] [.value 7] = .gt)
      decide
    · contradiction

end BufferedReplayKey

end ReadySet.Ops
