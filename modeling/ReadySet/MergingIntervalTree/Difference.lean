import ReadySet.MergingIntervalTree.Operations

/-!
Owns the difference iterator: what a range has outside of the tree. `max_bound` gives
the smaller of an endpoint and the end of the range (`maxBound_lower`), or the start of
the next gap (`maxBound_upper`), so the iterator yields the gaps between an upper
endpoint and the next lower one, in order and cut to the range.
-/

namespace ReadySet.MergingIntervalTree

open Data Dataflow DataflowState Library Endpoint List

universe u

variable {T : Type u} {item : Bound T × Bound T} {items : List (Bound T × Bound T)}
  {lower upper : Cut T} {middle : Bool} {point : T}

/-! ## Lists of ranges -/

section

variable [LinearOrder T]

/-- Ranges that are not empty, the first one from a cut on, each behind the one before. -/
structure Ascending (lower : Cut T) (items : List (Bound T × Bound T)) : Prop where
  nonempty : ∀ item ∈ items, lowerCut item.1 < upperCut item.2
  above : ∀ item ∈ items, lower ≤ lowerCut item.1
  increasing : items.Pairwise fun left right => upperCut left.2 ≤ lowerCut right.1

theorem ascending_nil (lower : Cut T) : Ascending lower [] := ⟨by simp, by simp, List.Pairwise.nil⟩

theorem Ascending.cons (nonempty : lowerCut item.1 < upperCut item.2)
    (above : lower ≤ lowerCut item.1) (rest : Ascending (upperCut item.2) items) :
    Ascending lower (item :: items) := by
  refine ⟨?_, ?_, pairwise_cons.mpr ⟨rest.above, rest.increasing⟩⟩
  · exact forall_mem_cons.mpr ⟨nonempty, rest.nonempty⟩
  · refine forall_mem_cons.mpr ⟨above, fun later mem => ?_⟩
    exact above.trans (nonempty.le.trans (rest.above later mem))

theorem Ascending.mono
    (ascending : Ascending upper items) (le : lower ≤ upper) : Ascending lower items :=
  ⟨ascending.nonempty, fun item mem => le.trans (ascending.above item mem), ascending.increasing⟩

def unionOf (items : List (Bound T × Bound T)) : Set T :=
  {point | ∃ item ∈ items, point ∈ rangePoints item.1 item.2}

/-- The ranges an iterator collects are behind a cut and have the given points. -/
def Collects (collected : Option (List (Bound T × Bound T))) (lower : Cut T) (points : T → Prop) :
    Prop :=
  ∃ items, collected = some items ∧ Ascending lower items ∧
    ∀ point, point ∈ unionOf items ↔ points point

theorem mem_unionOf_cons :
    point ∈ unionOf (item :: items) ↔
      point ∈ Cut.between (lowerCut item.1) (upperCut item.2) ∨ point ∈ unionOf items := by
  rw [← rangePoints_eq]
  exact exists_mem_cons_iff _ _ _

end

/-! ## The next bound -/

namespace IntervalDiffIter

variable [LinearOrder T] {stop other : Bound T}

@[simp] theorem maxBound_none : maxBound none other = (none, none) := rfl

/-- Up to a lower endpoint, or the end of the range. The end is forgotten only when
nothing of the range follows the endpoint. -/
theorem maxBound_lower (stop : Bound T) (above : lowerCut other ≠ .bottom) :
    ∃ hi left, maxBound (some stop) other = (some hi, left) ∧
      upperCut hi = min (lowerCut other) (upperCut stop) ∧
      (left = some stop ∨ left = none ∧ ∀ cut, lowerCut other < cut → upperCut stop ≤ cut) := by
  have beyond (le : upperCut stop ≤ lowerCut other) :
      ∀ cut, lowerCut other < cut → upperCut stop ≤ cut := fun cut less => le.trans less.le
  cases stop with
  | unbounded => cases other <;> simp_all [maxBound, lowerCut, upperCut]
  | included cur =>
    cases other with
    | unbounded => simp [lowerCut] at above
    | included oth =>
      rcases lt_trichotomy oth cur with less | rfl | greater
      · simp [maxBound, lowerCut, upperCut, compare_lt_iff_lt.mpr less, less.le]
      · -- Only the value itself follows, and the endpoint takes it.
        refine ⟨.excluded oth, none, by simp [maxBound], by simp [lowerCut, upperCut], .inr ?_⟩
        exact ⟨rfl, fun cut less => Cut.not_isBelow.mp less.not_ge⟩
      · refine ⟨.included cur, none, by simp [maxBound, compare_gt_iff_gt.mpr greater], ?_,
          .inr ⟨rfl, beyond ?_⟩⟩ <;> simp [lowerCut, upperCut, greater]
    | excluded oth =>
      rcases lt_trichotomy oth cur with less | rfl | greater
      · simp [maxBound, lowerCut, upperCut, compare_lt_iff_lt.mpr less, less.le]
      · simp [maxBound, lowerCut, upperCut]
      · refine ⟨.included cur, none, by simp [maxBound, compare_gt_iff_gt.mpr greater], ?_,
          .inr ⟨rfl, beyond ?_⟩⟩ <;> simp [lowerCut, upperCut, greater.le]
  | excluded cur =>
    cases other with
    | unbounded => simp [lowerCut] at above
    | included oth | excluded oth =>
      rcases lt_or_ge oth cur with less | notLess
      · simp [maxBound, lowerCut, upperCut, compare_lt_iff_lt.mpr less, less, less.le]
      · refine ⟨.excluded cur, none, ?_, ?_, .inr ⟨rfl, beyond ?_⟩⟩
        · simp [maxBound, compare_lt_iff_lt, notLess]
        all_goals simp [lowerCut, upperCut, notLess]

theorem maxBound_upper (less : upperCut other < upperCut stop) :
    ∃ lo, maxBound (some stop) other = (some lo, some stop) ∧ lowerCut lo = upperCut other := by
  cases stop with
  | unbounded => cases other <;> simp_all [maxBound, lowerCut, upperCut]
  | included cur =>
    cases other with
    | unbounded => simp [upperCut] at less
    | included oth =>
      have less : oth < cur := by simpa [upperCut] using less
      simp [maxBound, lowerCut, upperCut, compare_lt_iff_lt.mpr less]
    | excluded oth =>
      have le : oth ≤ cur := by simpa [upperCut] using less
      rcases le.lt_or_eq with less | rfl
      · simp [maxBound, lowerCut, upperCut, compare_lt_iff_lt.mpr less]
      · simp [maxBound, lowerCut, upperCut]
  | excluded cur =>
    cases other with
    | unbounded => simp [upperCut] at less
    | included oth | excluded oth =>
      have less : oth < cur := by simpa [upperCut] using less
      simp [maxBound, lowerCut, upperCut, compare_lt_iff_lt.mpr less]

section

variable {lim : Endpoint T}

theorem maxBound_isLower (stop : Bound T) (isLower : lim.isLower = true) (above : lower < lim.cut) :
    ∃ hi left, maxBound (some stop) lim.asBound = (some hi, left) ∧
      upperCut hi = min lim.cut (upperCut stop) ∧
      (left = some stop ∨ left = none ∧ ∀ cut, lim.cut < cut → upperCut stop ≤ cut) := by
  have isCut := lowerCut_asBound isLower
  rw [← isCut] at above ⊢
  exact maxBound_lower stop fun isBottom => Cut.not_lt_bottom (isBottom ▸ above)

theorem maxBound_isUpper (isUpper : lim.isLower = false) (less : lim.cut < upperCut stop) :
    ∃ lo, maxBound (some stop) lim.asBound = (some lo, some stop) ∧ lowerCut lo = lim.cut := by
  rw [← upperCut_asBound isUpper] at less ⊢
  exact maxBound_upper less

end

theorem maxBound_upper_of_le (le : upperCut stop ≤ upperCut other) :
    (maxBound (some stop) other).1 = none ∨ (maxBound (some stop) other).2 = none := by
  cases stop with
  | unbounded =>
    cases other with
    | unbounded => exact .inl rfl
    | included oth => exact absurd le (not_le.mpr Cut.after_lt_top)
    | excluded oth => exact absurd le (not_le.mpr Cut.before_lt_top)
  | included cur =>
    cases other with
    | unbounded => exact .inr rfl
    | included oth =>
      have le : cur ≤ oth := by simpa [upperCut] using le
      rcases le.lt_or_eq with less | rfl
      · simp [maxBound, compare_gt_iff_gt.mpr less]
      · simp [maxBound]
    | excluded oth =>
      have less : cur < oth := by simpa [upperCut] using le
      simp [maxBound, compare_gt_iff_gt.mpr less]
  | excluded cur =>
    cases other with
    | unbounded => exact .inr rfl
    | included oth | excluded oth =>
      have le : cur ≤ oth := by simpa [upperCut] using le
      simp [maxBound, compare_lt_iff_lt, le.not_gt]

/-! ## The iterator -/

variable {lowerBound upperBound : Option (Bound T)} {inner : List (Endpoint T)} {fuel : Nat}
  {start : Bound T}

theorem collect_stop (stops : ∃ after, next ⟨lowerBound, upperBound, inner⟩ = some (none, after)) :
    collect (fuel + 1) ⟨lowerBound, upperBound, inner⟩ = some [] := by
  obtain ⟨after, isNext⟩ := stops
  rw [collect, isNext]

theorem collect_item
    {iter after : IntervalDiffIter T} (isNext : next iter = some (some item, after))
    (rest : collect fuel after = some items) : collect (fuel + 1) iter = some (item :: items) := by
  rw [collect, isNext]
  simp [rest]

theorem next_none (isUpper : ∀ lim ∈ inner.head?, lim.isLower = false) :
    ∃ after, next ⟨lowerBound, none, inner⟩ = some (none, after) := by
  cases inner with
  | nil => cases lowerBound <;> exact ⟨_, rfl⟩
  | cons lim rest =>
    have notLower : lim.isLower = false := isUpper lim rfl
    exact ⟨⟨lowerBound, none, rest⟩, by simp [next, notLower]⟩

theorem next_covered {lim : Endpoint T} (isUpper : lim.isLower = false)
    (reaches : upperCut stop ≤ lim.cut) :
    ∃ after, next ⟨lowerBound, some stop, lim :: inner⟩ = some (none, after) := by
  rw [← upperCut_asBound isUpper] at reaches
  cases isBound : maxBound (some stop) lim.asBound with
  | mk found left =>
    have ended := maxBound_upper_of_le reaches
    simp only [isBound] at ended
    rcases ended with rfl | rfl
    · exact ⟨⟨lowerBound, left, inner⟩, by simp [next, isUpper, isBound]⟩
    · cases found with
      | none => exact ⟨⟨lowerBound, none, inner⟩, by simp [next, isUpper, isBound]⟩
      | some lo =>
        cases inner with
        | nil => exact ⟨⟨lowerBound, none, []⟩, by simp [next, isUpper, isBound]⟩
        | cons _ rest =>
          exact ⟨⟨lowerBound, none, rest⟩, by simp [next, isUpper, isBound]⟩

theorem collect_left (gaps : ∀ {lower : Cut T}, (∀ endpoint ∈ inner, lower ≤ endpoint.cut) →
      Collects (collect fuel ⟨lowerBound, some stop, inner⟩) lower fun point =>
        ¬(upperCut stop).IsBelow point ∧ sideOf false inner point = true)
    (alternates : Alternates false inner true) (enough : 0 < fuel) {limit : Cut T}
    (above : ∀ endpoint ∈ inner, limit < endpoint.cut)
    (left : upperBound = some stop ∨ upperBound = none ∧ ∀ cut, limit < cut → upperCut stop ≤ cut) :
    Collects (collect fuel ⟨lowerBound, upperBound, inner⟩) (min limit (upperCut stop)) fun point =>
      ¬(upperCut stop).IsBelow point ∧ sideOf false inner point = true := by
  rcases left with rfl | ⟨rfl, ended⟩
  · exact gaps fun endpoint mem => (min_le_left _ _).trans (above endpoint mem).le
  · obtain ⟨fuel, rfl⟩ := Nat.exists_eq_succ_of_ne_zero enough.ne'
    refine ⟨[], collect_stop (next_none ?_), ascending_nil _, fun point => ?_⟩
    · cases inner with
      | nil => simp
      | cons lim rest => simpa using alternates.head_isLower
    · -- All endpoints that are left are beyond the range.
      refine ⟨fun none => by simp [unionOf] at none, fun ⟨notBelow, outside⟩ => ?_⟩
      exact absurd (isBelow_of_sideOf (fun endpoint mem => ended _ (above endpoint mem)) outside)
        notBelow

theorem mem_gap_iff {first second last : Cut T} {outside : Bool}
    (le : first ≤ second) (below : outside = true → second.IsBelow point) :
    point ∈ Cut.between first (min second last) ∨ ¬last.IsBelow point ∧ outside = true ↔
      ¬last.IsBelow point ∧
        (if first.IsBelow point then if second.IsBelow point then outside else !false
          else false) = true := by
  have minBelow : (min second last).IsBelow point ↔ second.IsBelow point ∨ last.IsBelow point :=
    min_le_iff
  by_cases belowSecond : second.IsBelow point
  · simp [Cut.between, minBelow, belowSecond, belowSecond.of_le le]
  · have notOutside : outside = false := Bool.eq_false_iff.mpr fun isOutside =>
      belowSecond (below isOutside)
    by_cases belowFirst : first.IsBelow point <;>
      simp [Cut.between, minBelow, belowSecond, notOutside, belowFirst]

/-- The gaps that are collected from inside an interval on. -/
theorem collect_gaps (stop : Bound T) (lowerBound : Option (Bound T)) (inner : List (Endpoint T))
    (fuel : Nat) (mono : inner.Pairwise fun left right => left.cut < right.cut)
    (alternates : Alternates false inner true) (enough : inner.length < fuel) {lower : Cut T}
    (above : ∀ endpoint ∈ inner, lower ≤ endpoint.cut) :
    Collects (collect fuel ⟨lowerBound, some stop, inner⟩) lower fun point =>
      ¬(upperCut stop).IsBelow point ∧ sideOf false inner point = true := by
  match inner, fuel with
  | [], _ => nomatch alternates
  | lim :: rest, fuel + 1 =>
    have isUpper : lim.isLower = false := alternates.1
    obtain ⟨aboveLim, restIncreasing⟩ := pairwise_cons.mp mono
    rcases lt_or_ge lim.cut (upperCut stop) with less | reaches
    · -- A gap begins, up to the next endpoint or the end of the range.
      obtain ⟨lo, isLo, loCut⟩ := maxBound_isUpper isUpper less
      match rest with
      | [] =>
        have isNext : next ⟨lowerBound, some stop, [lim]⟩ =
            some (some (lo, stop), ⟨lowerBound, none, []⟩) := by
          simp [next, isUpper, isLo]
        obtain ⟨fuel, rfl⟩ := Nat.exists_eq_succ_of_ne_zero (Nat.lt_of_succ_lt_succ enough).ne'
        refine ⟨[(lo, stop)], collect_item isNext (collect_stop (next_none (by simp))),
          (ascending_nil _).cons (loCut ▸ less) (loCut ▸ above lim mem_cons_self),
          fun point => ?_⟩
        beta_reduce
        rw [mem_unionOf_cons, loCut]
        by_cases isBelow : lim.cut.IsBelow point <;>
          simp [unionOf, Cut.between, isBelow, sideOf, sideAt]
      | following :: rest =>
        have isLower : following.isLower = true := alternates.2.1
        have lessFollowing : lim.cut < following.cut := aboveLim following mem_cons_self
        obtain ⟨aboveFollowing, restIncreasing⟩ := pairwise_cons.mp restIncreasing
        obtain ⟨hi, left, isHi, hiCut, isLeft⟩ := maxBound_isLower stop isLower lessFollowing
        have isNext : next ⟨lowerBound, some stop, lim :: following :: rest⟩ =
            some (some (lo, hi), ⟨lowerBound, left, rest⟩) := by
          simp [next, isUpper, isLo, isHi]
        have restEnough : rest.length < fuel := by
          simp only [length_cons] at enough
          omega
        obtain ⟨items, collected, ascending, union⟩ := collect_left
          (collect_gaps stop lowerBound rest fuel restIncreasing alternates.2.2 restEnough)
          alternates.2.2 (Nat.zero_lt_of_lt restEnough) aboveFollowing isLeft
        refine ⟨(lo, hi) :: items, collect_item isNext collected, Ascending.cons ?_ ?_ ?_,
          fun point => ?_⟩
        · rw [loCut, hiCut]
          exact lt_min lessFollowing less
        · exact loCut ▸ above lim mem_cons_self
        · exact hiCut ▸ ascending
        · simp only [mem_unionOf_cons, union, loCut, hiCut]
          exact mem_gap_iff lessFollowing.le
            (isBelow_of_sideOf fun endpoint mem => (aboveFollowing endpoint mem).le)
    · refine ⟨[], collect_stop (next_covered isUpper reaches), ascending_nil _, fun point => ?_⟩
      refine ⟨fun none => by simp [unionOf] at none, ?_⟩
      rintro ⟨notBelow, outside⟩
      rw [sideOf_cons, if_neg fun isBelow => notBelow (isBelow.of_le reaches)] at outside
      cases outside

/-- The gaps of an interval that starts in one. -/
theorem collect_first (less : lowerCut start < upperCut stop)
    (mono : inner.Pairwise fun left right => left.cut < right.cut)
    (alternates : Alternates true inner true) (enough : inner.length + 1 < fuel)
    (above : ∀ endpoint ∈ inner, lowerCut start < endpoint.cut) :
    Collects (collect fuel ⟨some start, some stop, inner⟩) (lowerCut start) fun point =>
      point ∈ Cut.between (lowerCut start) (upperCut stop) ∧ sideOf true inner point = true := by
  match inner, fuel with
  | [], fuel + 2 =>
    refine ⟨[(start, stop)], collect_item rfl (collect_stop (next_none (by simp))),
      (ascending_nil _).cons less le_rfl, fun point => ?_⟩
    rw [mem_unionOf_cons]
    simp [unionOf, sideOf, sideAt]
  | lim :: rest, fuel + 1 =>
    have isLower : lim.isLower = true := alternates.1
    have lessLim : lowerCut start < lim.cut := above lim mem_cons_self
    obtain ⟨aboveLim, restIncreasing⟩ := pairwise_cons.mp mono
    obtain ⟨hi, left, isHi, hiCut, isLeft⟩ := maxBound_isLower stop isLower lessLim
    have isNext : next ⟨some start, some stop, lim :: rest⟩ =
        some (some (start, hi), ⟨none, left, rest⟩) := by
      simp [next, isLower, isHi]
    have restEnough : rest.length < fuel := by
      simp only [length_cons] at enough
      omega
    obtain ⟨items, collected, ascending, union⟩ := collect_left
      (collect_gaps stop none rest fuel restIncreasing alternates.2 restEnough)
      alternates.2 (Nat.zero_lt_of_lt restEnough) aboveLim isLeft
    refine ⟨(start, hi) :: items, collect_item isNext collected,
      Ascending.cons ?_ le_rfl (hiCut ▸ ascending), fun point => ?_⟩
    · rw [hiCut]
      exact lt_min lessLim less
    · have belowLim : sideOf false rest point = true → lim.cut.IsBelow point :=
        isBelow_of_sideOf fun endpoint mem => (aboveLim endpoint mem).le
      simp only [mem_unionOf_cons, union, sideOf_cons, hiCut]
      rw [mem_gap_iff lessLim.le belowLim]
      by_cases belowStart : (lowerCut start).IsBelow point <;> simp [Cut.between, belowStart]

theorem collect_nil_iff {iter : IntervalDiffIter T} :
    collect (fuel + 1) iter = some [] ↔ ∃ after, next iter = some (none, after) := by
  rw [collect]
  match next iter with
  | none | some (none, after) | some (some item, after) => simp

theorem next_none_iff (alternates : Alternates middle inner true)
    (above : ∀ endpoint ∈ inner, endpoint.isLower = true → lowerCut start < endpoint.cut) :
    (∃ after, next ⟨some start, some stop, inner⟩ = some (none, after)) ↔
      ∃ lim ∈ inner.head?, lim.isLower = false ∧ upperCut stop ≤ lim.cut := by
  match inner with
  | [] => simp [next]
  | lim :: rest =>
    cases isLower : lim.isLower with
    | true =>
      obtain ⟨hi, left, isHi, -⟩ := maxBound_isLower stop isLower (above lim mem_cons_self isLower)
      simp [next, isLower, isHi]
    | false =>
      rcases lt_or_ge lim.cut (upperCut stop) with less | reaches
      · obtain ⟨lo, isLo, -⟩ := maxBound_isUpper isLower less
        match rest with
        | [] => simp [next, isLower, isLo, less.not_ge]
        | following :: rest =>
          have nextLower : following.isLower = true := by
            rw [alternates.2.1, ← alternates.1, isLower]
            rfl
          obtain ⟨hi, left, isHi, -⟩ :=
            maxBound_isLower stop nextLower (above following (by simp) nextLower)
          simp [next, isLower, isLo, isHi, less.not_ge]
      · exact iff_of_true (next_covered isLower reaches) ⟨lim, rfl, isLower, reaches⟩

end IntervalDiffIter

/-! ## Differences -/

namespace IntervalTreeSet

variable [LinearOrder T] {tree : IntervalTreeSet T} {start stop : Bound T}

/-- Where the iterator starts in the tree. -/
theorem WellFormed.splitAt_diffIter (wf : tree.WellFormed) (start stop : Bound T) :
    ∃ before middle,
      tree.SplitAt (lowerCut start) before middle (tree.diffIter start stop).inner := by
  cases start with
  | included value =>
    refine (wf.splitAt (fun endpoint isLT => ?_) fun endpoint notLT => ?_).1
    · rw [Ordering.isLT_iff_eq_lt, cmp_eq_lt] at isLT
      exact isLT.elim le_of_lt fun same => same.1.le
    · rw [Bool.eq_false_iff, Ne, Ordering.isLT_iff_eq_lt, cmp_eq_lt] at notLT
      rcases lt_trichotomy (lowerCut (.included value)) endpoint.cut with less | same | greater
      · exact .inl less
      · exact .inr ⟨same.symm, Bool.eq_false_iff.mpr fun isLower =>
          notLT (.inr ⟨same.symm, isLower, rfl⟩)⟩
      · exact absurd (.inl greater) notLT
  | excluded value =>
    have isLE_iff (endpoint : Endpoint T) :
        (endpoint.cmp (.upperInclusive value)).isLE = true ↔ endpoint.cut ≤ .after value := by
      rw [Ordering.isLE_iff_ne_gt, cmp_eq_gt.not]
      simp [cut, isLower]
    refine (wf.splitAt (fun endpoint => (isLE_iff endpoint).mp) fun endpoint notLE => ?_).1
    exact .inl (not_le.mp fun le => Bool.false_ne_true (notLE ▸ (isLE_iff endpoint).mpr le))
  | unbounded => exact wf.splitAt_rangeAfter .unbounded

/-- The difference with a range: the gaps of the tree in it, in order. -/
theorem WellFormed.getIntervalDifference_spec (wf : tree.WellFormed)
    (less : lowerCut start < upperCut stop) :
    ∃ items, tree.getIntervalDifference start stop = .ok items ∧
      Ascending (lowerCut start) items ∧
        unionOf items = Cut.between (lowerCut start) (upperCut stop) \ tree.points := by
  obtain ⟨before, middle, split⟩ := wf.splitAt_diffIter start stop
  have enough : (tree.diffIter start stop).inner.length + 1 < tree.fuel := by
    rw [fuel, split.boundSet_eq, length_append]
    omega
  suffices collects : Collects ((tree.diffIter start stop).collect tree.fuel) (lowerCut start)
      fun point => point ∈ Cut.between (lowerCut start) (upperCut stop) ∧
        sideOf middle (tree.diffIter start stop).inner point = true by
    obtain ⟨items, collected, ascending, union⟩ := collects
    refine ⟨items, ?_, ascending, Set.ext fun point => ?_⟩
    · simp [getIntervalDifference, checkRange_ok_iff.mpr less, collected]
    · rw [union]
      refine and_congr_right fun isBetween => ?_
      rw [split.mem_points_iff isBetween.1, Bool.not_eq_false]
  cases middle with
  | true =>
    exact IntervalDiffIter.collect_first less split.increasing split.alternates enough
      split.lt_of_lower
  | false =>
    have above : ∀ endpoint ∈ (tree.diffIter start stop).inner, lowerCut start ≤ endpoint.cut :=
      fun endpoint mem => (split.isAfter endpoint mem).le
    obtain ⟨items, collected, ascending, union⟩ := IntervalDiffIter.collect_gaps stop (some start)
      _ tree.fuel split.increasing split.alternates (Nat.lt_of_succ_lt enough) above
    refine ⟨items, collected, ascending, fun point => ?_⟩
    rw [union]
    refine ⟨fun ⟨notBelow, outside⟩ => ⟨⟨?_, notBelow⟩, outside⟩,
      fun ⟨isBetween, outside⟩ => ⟨isBetween.2, outside⟩⟩
    exact isBelow_of_sideOf above outside

/-! ## Empty differences -/

/-- One interval of the tree reaches over the whole range. -/
def Spans (tree : IntervalTreeSet T) (lower upper : Cut T) : Prop :=
  ∃ lim ∈ tree.boundSet, lim.isLower = false ∧ upper ≤ lim.cut ∧ ∀ endpoint ∈ tree.boundSet,
    lower < endpoint.cut ∨ endpoint.cut = lower ∧ endpoint.isLower = false →
      lim.cut ≤ endpoint.cut

/-- Whether one interval of the tree reaches over the section. -/
theorem SplitAt.head_spans_iff {before after : List (Endpoint T)}
    (split : tree.SplitAt lower before middle after) (less : lower < upper) :
    (∃ lim ∈ after.head?, lim.isLower = false ∧ upper ≤ lim.cut) ↔ tree.Spans lower upper := by
  constructor
  · rintro ⟨lim, isHead, isUpper, reaches⟩
    obtain ⟨rest, rfl⟩ : ∃ rest, after = lim :: rest := ⟨after.tail, eq_cons_of_mem_head? isHead⟩
    refine ⟨lim, by simp [split.boundSet_eq], isUpper, reaches, fun endpoint stored follows => ?_⟩
    rw [split.boundSet_eq] at stored
    rcases mem_append.mp stored with isEarly | isLate
    · obtain rfl : middle = false := by rw [← split.alternates.head_isLower, isUpper]
      exact absurd follows (split.not_follows endpoint isEarly)
    · rcases mem_cons.mp isLate with rfl | later
      · exact le_rfl
      · exact ((pairwise_cons.mp split.increasing).1 endpoint later).le
  · rintro ⟨lim, stored, isUpper, reaches, isFirst⟩
    rw [split.boundSet_eq] at stored
    rcases mem_append.mp stored with isEarly | isLate
    · exact absurd (reaches.trans (split.isBefore lim isEarly)) less.not_ge
    · match after with
      | head :: rest =>
        rcases mem_cons.mp isLate with rfl | later
        · exact ⟨lim, rfl, isUpper, reaches⟩
        · have headStored : head ∈ tree.boundSet := by simp [split.boundSet_eq]
          have le := isFirst head headStored (split.isAfter head mem_cons_self)
          exact absurd ((pairwise_cons.mp split.increasing).1 lim later) le.not_gt

section

variable (wf : tree.WellFormed) (less : lowerCut start < upperCut stop)

include wf less

theorem coversInterval_iff_spans :
    tree.coversInterval start stop = .ok true ↔ tree.Spans (lowerCut start) (upperCut stop) := by
  obtain ⟨before, middle, split⟩ := wf.splitAt_rangeAfter start
  rw [coversInterval_eq less, ← split.head_spans_iff less]
  cases (rangeAfter tree.boundSet (.lower start)).head? <;> simp

theorem WellFormed.getIntervalDifference_nil_iff :
    tree.getIntervalDifference start stop = .ok [] ↔ tree.coversInterval start stop = .ok true := by
  obtain ⟨before, middle, split⟩ := wf.splitAt_diffIter start stop
  rw [coversInterval_iff_spans wf less, ← split.head_spans_iff less]
  have above : ∀ endpoint ∈ (tree.diffIter start stop).inner, endpoint.isLower = true →
      lowerCut start < endpoint.cut :=
    fun endpoint mem isLower => (split.isAfter endpoint mem).lt_of_lower isLower
  have nil_iff : (tree.diffIter start stop).collect tree.fuel = some [] ↔ _ :=
    IntervalDiffIter.collect_nil_iff
  refine Iff.trans ?_ (nil_iff.trans (IntervalDiffIter.next_none_iff split.alternates above))
  rw [getIntervalDifference, checkRange_ok_iff.mpr less]
  cases (tree.diffIter start stop).collect tree.fuel <;> simp

end

end IntervalTreeSet

theorem Ascending.disjoint [LinearOrder T]
    (ascending : Ascending lower items) : items.Pairwise fun left right =>
      Disjoint (rangePoints left.1 left.2) (rangePoints right.1 right.2) := by
  refine ascending.increasing.imp fun {left right} le => ?_
  rw [rangePoints_eq, rangePoints_eq, Set.disjoint_left]
  exact fun point inLeft inRight => inLeft.2 (inRight.1.of_le le)

/-- The difference of a valid range and a tree that inserts and removes lead to: disjoint
ranges in increasing order that are together exactly the points of the range outside of
the tree. -/
theorem getIntervalDifference_of_run [LinearOrder T] {ops : List (Op T)} {tree : IntervalTreeSet T}
    (ran : ops.foldlM Op.apply {} = .ok tree) {start stop : Bound T}
    (checked : checkRange compare start stop = .ok ⟨⟩) :
    ∃ items, tree.getIntervalDifference start stop = .ok items ∧
      (items.Pairwise fun left right =>
        Disjoint (rangePoints left.1 left.2) (rangePoints right.1 right.2)) ∧
      (items.Pairwise fun left right => upperCut left.2 ≤ lowerCut right.1) ∧
      unionOf items = rangePoints start stop \ tree.points := by
  obtain ⟨items, collected, ascending, union⟩ :=
    (wellFormed_of_run ran).getIntervalDifference_spec (checkRange_ok_iff.mp checked)
  exact ⟨items, collected, ascending.disjoint, ascending.increasing, rangePoints_eq start stop ▸ union⟩

def twoIntervals : IntervalTreeSet ℕ :=
  ⟨[.lowerInclusive 2, .upperExclusive 5, .lowerInclusive 8, .upperInclusive 8]⟩

theorem twoIntervals_difference :
    ∃ items, twoIntervals.getIntervalDifference (.excluded 1) .unbounded = .ok items ∧
      (items.Pairwise fun left right =>
        Disjoint (rangePoints left.1 left.2) (rangePoints right.1 right.2)) ∧
      (items.Pairwise fun left right => upperCut left.2 ≤ lowerCut right.1) ∧
      unionOf items = rangePoints (.excluded 1) .unbounded \ twoIntervals.points :=
  have ran : [Op.insertInterval (.included 2) (.excluded 5), .insertPoint 8].foldlM Op.apply {} =
      .ok twoIntervals := rfl
  getIntervalDifference_of_run ran rfl

end ReadySet.MergingIntervalTree
