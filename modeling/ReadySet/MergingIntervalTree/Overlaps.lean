import ReadySet.MergingIntervalTree.Difference

/-!
Owns the overlap iterator: what a range shares with the tree. The iterator is right for
bounded ranges, except that a range that ends at a value takes the value when an
interval ends just before it (`collect_covered`). For a range without an end,
`max_bound` gives nothing at a bounded endpoint, so the iterator yields nothing unless
the tree covers the whole range.
-/

namespace ReadySet.MergingIntervalTree

open Data Dataflow DataflowState Library IntervalOverlapIter
open Endpoint (isUpper isLower cut)
open List (mem_cons_self pairwise_cons)

universe u

variable {T : Type u} {items : List (Bound T × Bound T)}

namespace IntervalOverlapIter

variable [LinearOrder T] {stop other : Bound T}

/-! ## The next bound -/

@[simp] theorem maxBound_none : maxBound none other = (none, none) := rfl

/-- The value that a range ends with, and an interval just before. -/
def Misses (stop other : Bound T) (value : T) : Prop :=
  stop = .included value ∧ other = .excluded value

section

variable (bounded : stop ≠ .unbounded)

include bounded

theorem maxBound_upper (other : Bound T) :
    maxBound (some stop) other = (some other, some stop) ∧ upperCut other ≤ upperCut stop ∧
        (∀ value, ¬Misses stop other value) ∨
      maxBound (some stop) other = (some stop, none) ∧
        (upperCut stop ≤ upperCut other ∨ ∃ value, Misses stop other value) := by
  cases stop with
  | unbounded => exact absurd rfl bounded
  | included cur =>
    cases other with
    | unbounded => exact .inr ⟨rfl, .inl Cut.le_top⟩
    | included oth =>
      rcases le_or_gt oth cur with le | greater
      · simp [maxBound, compare_gt_iff_gt, upperCut, le, Misses]
      · simp [maxBound, compare_gt_iff_gt, greater, upperCut, greater.le]
    | excluded oth =>
      rcases lt_trichotomy oth cur with less | rfl | greater
      · simp [maxBound, compare_lt_iff_lt.mpr less, upperCut, less.le, Misses, less.ne]
      · simp [maxBound, Misses]
      · simp [maxBound, compare_gt_iff_gt.mpr greater, upperCut, greater]
  | excluded cur =>
    cases other with
    | unbounded => exact .inr ⟨rfl, .inl Cut.le_top⟩
    | included oth | excluded oth =>
      rcases lt_or_ge oth cur with less | notLess
      · simp [maxBound, compare_lt_iff_lt.mpr less, upperCut, less, less.le, Misses]
      · simp [maxBound, compare_lt_iff_lt, upperCut, notLess]

/-- A bounded range gives way to an endpoint that it goes past. -/
theorem maxBound_eq : maxBound (some stop) other =
    if other ≠ .unbounded ∧ lowerCut other < upperCut stop then (some other, some stop)
    else (some stop, none) := by
  cases stop with
  | unbounded => exact absurd rfl bounded
  | included cur =>
    cases other with
    | unbounded => rfl
    | included oth =>
      rcases le_or_gt oth cur with le | greater
      · simp [maxBound, compare_gt_iff_gt, lowerCut, upperCut, le]
      · simp [maxBound, compare_gt_iff_gt.mpr greater, lowerCut, upperCut, greater.not_ge]
    | excluded oth => simp [maxBound, lowerCut, upperCut, compare_lt_iff_lt]
  | excluded cur =>
    cases other with
    | unbounded => rfl
    | included oth | excluded oth => simp [maxBound, lowerCut, upperCut, compare_lt_iff_lt]

theorem maxBound_lower (less : lowerCut other < upperCut stop)
    (notBottom : lowerCut other ≠ .bottom) :
    maxBound (some stop) other = (some other, some stop) := by
  have isBounded : other ≠ .unbounded := by
    rintro rfl
    exact notBottom rfl
  rw [maxBound_eq bounded, if_pos ⟨isBounded, less⟩]

theorem maxBound_lower_of_le (le : upperCut stop ≤ lowerCut other) :
    maxBound (some stop) other = (some stop, none) := by
  rw [maxBound_eq bounded, if_neg fun both => le.not_gt both.2]

end

/-! ## The iterator -/

variable {lowerBound : Option (Bound T)} {inner rest : List (Endpoint T)} {fuel : Nat}

theorem collect_stop {iter : IntervalOverlapIter T}
    (stops : ∃ after, next iter = some (none, after)) : collect (fuel + 1) iter = some [] := by
  obtain ⟨after, isNext⟩ := stops
  rw [collect, isNext]

theorem collect_item {item : Bound T × Bound T}
    {iter after : IntervalOverlapIter T} (isNext : next iter = some (some item, after))
    (collected : collect fuel after = some items) :
    collect (fuel + 1) iter = some (item :: items) := by
  rw [collect, isNext]
  simp [collected]

theorem next_none (alternates : Alternates true inner true) :
    ∃ after, next ⟨lowerBound, none, inner⟩ = some (none, after) := by
  cases inner with
  | nil => exact ⟨⟨lowerBound, none, []⟩, rfl⟩
  | cons lim rest =>
    exact ⟨⟨lowerBound, none, rest⟩, by simp [next, isUpper, alternates.head_isLower]⟩

/-- The range takes a value that an interval ends just before. -/
def WrongAt (stop : Bound T) (inner : List (Endpoint T)) (point : T) : Prop :=
  stop = .included point ∧ .upperExclusive point ∈ inner

theorem WrongAt.isBelow {cut : Cut T} {point : T} (wrong : WrongAt stop inner point)
    (above : ∀ endpoint ∈ inner, cut < endpoint.cut) : cut.IsBelow point :=
  (above _ wrong.2).le

/-- An item that ends at an upper endpoint or at the end of the range, and the items
after it. -/
theorem collect_upper (bounded : stop ≠ .unbounded) {lim : Endpoint T}
    (isUpper : lim.isLower = false) {lo : Bound T} (lessLim : lowerCut lo < lim.cut)
    (lessStop : lowerCut lo < upperCut stop) (above : ∀ endpoint ∈ rest, lim.cut < endpoint.cut)
    (alternates : Alternates true rest true) (enough : 0 < fuel)
    (later : Collects (collect fuel ⟨lowerBound, some stop, rest⟩) lim.cut fun point =>
      ¬(upperCut stop).IsBelow point ∧ (sideOf true rest point = false ∨ WrongAt stop rest point)) :
    ∃ hi left items, maxBound (some stop) lim.asBound = (some hi, left) ∧
      collect fuel ⟨lowerBound, left, rest⟩ = some items ∧
      Ascending (lowerCut lo) ((lo, hi) :: items) ∧
      ∀ point, point ∈ unionOf ((lo, hi) :: items) ↔
        point ∈ Cut.between (lowerCut lo) (upperCut stop) ∧
          (sideOf false (lim :: rest) point = false ∨ WrongAt stop (lim :: rest) point) := by
  have limCut := Endpoint.upperCut_asBound isUpper
  rcases maxBound_upper bounded lim.asBound with
    ⟨isBound, le, notMisses⟩ | ⟨isBound, ended⟩
  · -- The endpoint is within the range, and the items after it follow.
    obtain ⟨items, collected, ascending, union⟩ := later
    refine ⟨lim.asBound, some stop, items, isBound, collected, ?_, fun point => ?_⟩
    · exact Ascending.cons (limCut ▸ lessLim) le_rfl (limCut ▸ ascending)
    · have wrong_iff : WrongAt stop (lim :: rest) point ↔ WrongAt stop rest point := by
        refine and_congr_right fun isStop => ⟨fun mem => ?_, List.mem_cons_of_mem _⟩
        rcases List.mem_cons.mp mem with isLim | isLater
        · exact absurd ⟨isStop, isLim ▸ rfl⟩ (notMisses point)
        · exact isLater
      rw [mem_unionOf_cons, union, sideOf_cons, wrong_iff, limCut]
      by_cases belowLim : lim.cut.IsBelow point
      · simp [Cut.between, belowLim, belowLim.of_le lessLim.le]
      · -- Nothing behind the endpoint is about this point.
        have inside : sideOf true rest point = true := sideOf_of_not_below
          fun endpoint mem isBelow => belowLim (isBelow.of_le (above endpoint mem).le)
        have notWrong : ¬WrongAt stop rest point := fun wrong => belowLim (wrong.isBelow above)
        have notBelowStop : ¬(upperCut stop).IsBelow point := fun isBelow =>
          belowLim (isBelow.of_le (limCut ▸ le))
        simp [Cut.between, inside, notWrong, notBelowStop]
  · obtain ⟨fuel, rfl⟩ := Nat.exists_eq_succ_of_ne_zero enough.ne'
    refine ⟨stop, none, [], isBound, collect_stop (next_none alternates),
      Ascending.cons lessStop le_rfl (ascending_nil _), fun point => ?_⟩
    rw [mem_unionOf_cons]
    refine ⟨fun isMember => ?_, fun isMember => .inl isMember.1⟩
    have isBetween : point ∈ Cut.between (lowerCut lo) (upperCut stop) := by
      simpa [unionOf] using isMember
    refine ⟨isBetween, ?_⟩
    by_cases belowLim : lim.cut.IsBelow point
    · -- Only the end of the range itself can be behind the endpoint.
      rcases ended with le | ⟨value, rfl, isExcluded⟩
      · exact absurd (belowLim.of_le (limCut ▸ le)) isBetween.2
      · have isLim : lim = .upperExclusive value := by
          cases lim <;> simp_all [Endpoint.asBound, isLower]
        subst isLim
        have same : point = value := by
          refine le_antisymm ?_ (by simpa [Cut.IsBelow, cut] using belowLim)
          simpa [Cut.IsBelow, upperCut] using isBetween.2
        exact .inr ⟨same ▸ rfl, same ▸ mem_cons_self⟩
    · exact .inl (if_neg belowLim)

/-- The overlaps that are collected, with the points that are wrong. -/
theorem collect_covered (bounded : stop ≠ .unbounded) {inner : List (Endpoint T)} {fuel : Nat}
    (mono : inner.Pairwise fun left right => left.cut < right.cut)
    (alternates : Alternates true inner true) (enough : inner.length < fuel) {lower : Cut T}
    (above : ∀ endpoint ∈ inner, lower < endpoint.cut) :
    Collects (collect fuel ⟨lowerBound, some stop, inner⟩) lower fun point =>
      ¬(upperCut stop).IsBelow point ∧
        (sideOf true inner point = false ∨ WrongAt stop inner point) := by
  match inner, fuel with
  | [], fuel + 1 =>
    refine ⟨[], collect_stop ⟨_, rfl⟩, ascending_nil _, fun point => ?_⟩
    simp [unionOf, sideOf, sideAt, WrongAt]
  | [lim], fuel + 1 => cases alternates.2
  | lim :: following :: rest, fuel + 1 =>
    have isLower : lim.isLower = true := alternates.1
    have isUpper : following.isLower = false := alternates.2.1
    obtain ⟨aboveLim, restIncreasing⟩ := pairwise_cons.mp mono
    obtain ⟨aboveFollowing, restIncreasing⟩ := pairwise_cons.mp restIncreasing
    have limCut := Endpoint.lowerCut_asBound isLower
    have wrong_iff (point : T) : WrongAt stop (lim :: following :: rest) point ↔
        WrongAt stop (following :: rest) point := by
      refine and_congr_right fun _ => ⟨fun mem => ?_, List.mem_cons_of_mem _⟩
      rcases List.mem_cons.mp mem with isLim | isLater
      · exact absurd (isLower.symm.trans (isLim ▸ rfl)) Bool.false_ne_true.symm
      · exact isLater
    rcases lt_or_ge lim.cut (upperCut stop) with less | reaches
    · have notBottom : lowerCut lim.asBound ≠ .bottom := by
        rw [limCut]
        intro isBottom
        exact Cut.not_lt_bottom (isBottom ▸ above lim mem_cons_self)
      have isLo := maxBound_lower bounded (limCut ▸ less) notBottom
      have restEnough : rest.length < fuel := by
        simp only [List.length_cons] at enough
        omega
      obtain ⟨hi, left, items, isHi, collected, ascending, union⟩ :=
        collect_upper bounded isUpper (limCut ▸ aboveLim following mem_cons_self)
          (limCut ▸ less) aboveFollowing alternates.2.2 (Nat.zero_lt_of_lt restEnough)
          (collect_covered bounded restIncreasing alternates.2.2 restEnough aboveFollowing)
      have isNext : next ⟨lowerBound, some stop, lim :: following :: rest⟩ =
          some (some (lim.asBound, hi), ⟨lowerBound, left, rest⟩) := by
        simp [next, Endpoint.isUpper, isLower, isLo, isHi]
      refine ⟨_, collect_item isNext collected,
        ascending.mono (limCut ▸ (above lim mem_cons_self).le), fun point => ?_⟩
      have belowLim (wrong : WrongAt stop (following :: rest) point) : lim.cut.IsBelow point :=
        wrong.isBelow aboveLim
      have side : sideOf true (lim :: following :: rest) point =
          if lim.cut.IsBelow point then sideOf false (following :: rest) point else true :=
        sideOf_cons
      simp only [union, limCut, wrong_iff, side]
      by_cases isBelow : lim.cut.IsBelow point
      · simp [Cut.between, isBelow]
      · have notWrong := mt belowLim isBelow
        simp [Cut.between, isBelow, notWrong]
    · have isNext : next ⟨lowerBound, some stop, lim :: following :: rest⟩ =
          some (none, ⟨lowerBound, none, rest⟩) := by
        simp [next, Endpoint.isUpper, isLower, maxBound_lower_of_le bounded (limCut ▸ reaches)]
      refine ⟨[], collect_stop ⟨_, isNext⟩, ascending_nil _, fun point => ?_⟩
      refine ⟨fun none => by simp [unionOf] at none, ?_⟩
      rintro ⟨notBelow, isMember⟩
      have notBelowLim : ¬lim.cut.IsBelow point := fun isBelow => notBelow (isBelow.of_le reaches)
      rcases isMember with inside | wrong
      · rw [sideOf_cons, if_neg notBelowLim] at inside
        cases inside
      · exact absurd (((wrong_iff point).mp wrong).isBelow aboveLim) notBelowLim

end IntervalOverlapIter

/-! ## Overlaps -/

namespace IntervalTreeSet

variable [LinearOrder T] {tree : IntervalTreeSet T} {start stop : Bound T}

theorem getIntervalOverlaps_eq (less : lowerCut start < upperCut stop)
    (collected : (tree.overlapIter start stop).collect tree.fuel = some items) :
    tree.getIntervalOverlaps start stop = .ok items := by
  simp [getIntervalOverlaps, checkRange_ok_iff.mpr less, collected]

/-- The value that a range ends with, when an interval that the range reaches ends just
before it. -/
def EndsBefore (tree : IntervalTreeSet T) (start stop : Bound T) (value : T) : Prop :=
  stop = .included value ∧ .upperExclusive value ∈ tree.boundSet ∧ lowerCut start < .before value

theorem lowerCut_lt_top (start : Bound T) : lowerCut start < upperCut .unbounded := by
  cases start <;> simp [lowerCut, upperCut]

theorem eq_upperUnbounded {endpoint : Endpoint T} (isTop : .top ≤ endpoint.cut) :
    endpoint = .upperUnbounded := by
  have same : endpoint.cut = .top := le_antisymm Cut.le_top isTop
  cases endpoint <;> simp [cut] at same ⊢

section

variable (wf : tree.WellFormed)

include wf

/-- The endpoints the iterator starts from: those behind the start of the range. -/
theorem exists_overlapIter (start stop : Bound T) :
    (∃ before middle,
      tree.SplitAt (lowerCut start) before middle (tree.overlapIter start stop).inner) ∧
      ∀ endpoint ∈ (tree.overlapIter start stop).inner, lowerCut start < endpoint.cut := by
  obtain ⟨place, isInner, isLE_iff⟩ : ∃ place : Endpoint T,
      (tree.overlapIter start stop).inner = rangeAfter tree.boundSet place ∧
        ∀ endpoint : Endpoint T, (endpoint.cmp place).isLE = true ↔
          endpoint.cut ≤ lowerCut start := by
    cases start with
    | included value =>
      refine ⟨.upperExclusive value, rfl, fun endpoint => ?_⟩
      rw [Ordering.isLE_iff_ne_gt, Endpoint.cmp_eq_gt.not]
      simp [cut, isLower, lowerCut]
    | excluded value =>
      refine ⟨.upperInclusive value, rfl, fun endpoint => ?_⟩
      rw [Ordering.isLE_iff_ne_gt, Endpoint.cmp_eq_gt.not]
      simp [cut, isLower, lowerCut]
    | unbounded =>
      refine ⟨.lowerUnbounded, rfl, fun endpoint => ?_⟩
      cases endpoint <;> simp [Endpoint.cmp, cut, lowerCut]
  have isAfter (endpoint : Endpoint T) (notLE : (endpoint.cmp place).isLE = false) :
      lowerCut start < endpoint.cut :=
    not_le.mp fun le => Bool.false_ne_true (notLE ▸ (isLE_iff endpoint).mpr le)
  rw [isInner]
  exact (wf.splitAt (fun endpoint => (isLE_iff endpoint).mp)
    fun endpoint notLE => .inl (isAfter endpoint notLE)).imp_right fun notLE endpoint mem =>
      isAfter endpoint (notLE endpoint mem)

/-- Overlaps with an interval that has an end. -/
theorem WellFormed.getIntervalOverlaps_bounded (less : lowerCut start < upperCut stop)
    (bounded : stop ≠ .unbounded) :
    ∃ items, tree.getIntervalOverlaps start stop = .ok items ∧ Ascending (lowerCut start) items ∧
      ∀ point, point ∈ unionOf items ↔ point ∈ Cut.between (lowerCut start) (upperCut stop) ∧
        (point ∈ tree.points ∨ tree.EndsBefore start stop point) := by
  obtain ⟨⟨before, middle, split⟩, isAfter⟩ := exists_overlapIter wf start stop
  have enough : (tree.overlapIter start stop).inner.length < tree.fuel := by
    rw [fuel, split.boundSet_eq, List.length_append]
    omega
  have wrong_iff (point : T) :
      IntervalOverlapIter.WrongAt stop (tree.overlapIter start stop).inner point ↔
        tree.EndsBefore start stop point := by
    refine and_congr_right fun _ => ⟨fun mem => ⟨?_, isAfter _ mem⟩, ?_⟩
    · rw [split.boundSet_eq]
      exact List.mem_append_right _ mem
    · rintro ⟨mem, above⟩
      rw [split.boundSet_eq] at mem
      rcases List.mem_append.mp mem with isEarly | isLate
      · exact absurd (split.isBefore _ isEarly) above.not_ge
      · exact isLate
  suffices collects : Collects ((tree.overlapIter start stop).collect tree.fuel) (lowerCut start)
      fun point => point ∈ Cut.between (lowerCut start) (upperCut stop) ∧
        (sideOf middle (tree.overlapIter start stop).inner point = false ∨
          IntervalOverlapIter.WrongAt stop (tree.overlapIter start stop).inner point) by
    obtain ⟨items, collected, ascending, union⟩ := collects
    refine ⟨items, getIntervalOverlaps_eq less collected, ascending, fun point => ?_⟩
    simp only [union, wrong_iff]
    exact and_congr_right fun isBetween => or_congr_left (split.mem_points_iff isBetween.1).symm
  cases middle with
  | true =>
    obtain ⟨items, collected, ascending, union⟩ :=
      collect_covered bounded split.increasing split.alternates enough isAfter
    refine ⟨items, collected, ascending, fun point => (union point).trans ?_⟩
    refine ⟨?_, fun both => ⟨both.1.2, both.2⟩⟩
    rintro ⟨notBelow, isMember⟩
    refine ⟨⟨?_, notBelow⟩, isMember⟩
    rcases isMember with inside | wrong
    · exact isBelow_of_sideOf (fun endpoint mem => (isAfter endpoint mem).le) inside
    · exact wrong.isBelow isAfter
  | false =>
    generalize isInner : (tree.overlapIter start stop).inner = inner at *
    have isIter : tree.overlapIter start stop = ⟨some start, some stop, inner⟩ := by
      rw [← isInner]
      rfl
    rw [isIter]
    cases inner with
    | nil => cases split.alternates
    | cons lim rest =>
      have isUpper : lim.isLower = false := split.alternates.1
      obtain ⟨aboveLim, restIncreasing⟩ := pairwise_cons.mp split.increasing
      obtain ⟨fuel, isFuel⟩ := Nat.exists_eq_succ_of_ne_zero (Nat.ne_zero_of_lt enough)
      have restEnough : rest.length < fuel := by
        rw [isFuel] at enough
        exact Nat.lt_of_succ_lt_succ enough
      obtain ⟨hi, left, items, isHi, collected, ascending, union⟩ :=
        collect_upper bounded isUpper (isAfter lim mem_cons_self) less
          aboveLim split.alternates.2 (Nat.zero_lt_of_lt restEnough)
          (collect_covered bounded restIncreasing
            split.alternates.2 restEnough aboveLim)
      have isNext : next ⟨some start, some stop, lim :: rest⟩ =
          some (some (start, hi), ⟨none, left, rest⟩) := by
        simp [next, Endpoint.isUpper, isUpper, isHi]
      rw [isFuel]
      exact ⟨_, collect_item isNext collected, ascending, union⟩

/-- The tree covers a range without an end exactly when no endpoint follows the start but
the unbounded one. -/
theorem WellFormed.coversInterval_unbounded_iff (start : Bound T) :
    tree.coversInterval start .unbounded = .ok true ↔
      (tree.overlapIter start .unbounded).inner = [.upperUnbounded] := by
  obtain ⟨⟨before, middle, split⟩, -⟩ := exists_overlapIter wf start .unbounded
  have less := lowerCut_lt_top start
  rw [coversInterval_iff_spans wf less, ← split.head_spans_iff less]
  generalize (tree.overlapIter start .unbounded).inner = inner at split ⊢
  constructor
  · rintro ⟨lim, isHead, -, isTop⟩
    obtain ⟨rest, rfl⟩ : ∃ rest, inner = lim :: rest := ⟨inner.tail, List.eq_cons_of_mem_head? isHead⟩
    obtain rfl := eq_upperUnbounded isTop
    refine congrArg _ (List.eq_nil_iff_forall_not_mem.mpr fun later mem => ?_)
    exact Cut.not_top_lt ((pairwise_cons.mp split.increasing).1 later mem)
  · rintro rfl
    exact ⟨.upperUnbounded, rfl, rfl, le_rfl⟩

/-- For a range without an end the iterator yields the range when the tree covers it, and
nothing otherwise. -/
theorem WellFormed.getIntervalOverlaps_unbounded (start : Bound T) :
    tree.coversInterval start .unbounded = .ok true ∧
        tree.getIntervalOverlaps start .unbounded = .ok [(start, .unbounded)] ∨
      tree.coversInterval start .unbounded = .ok false ∧
        tree.getIntervalOverlaps start .unbounded = .ok [] := by
  obtain ⟨⟨before, middle, split⟩, isAfter⟩ := exists_overlapIter wf start .unbounded
  have mono := split.increasing
  have isIter : tree.overlapIter start .unbounded =
      ⟨some start, some .unbounded, (tree.overlapIter start .unbounded).inner⟩ := rfl
  by_cases covers : tree.coversInterval start .unbounded = .ok true
  · refine .inl ⟨covers, getIntervalOverlaps_eq (lowerCut_lt_top start) ?_⟩
    rw [isIter, (wf.coversInterval_unbounded_iff start).mp covers]
    rfl
  · refine .inr ⟨?_, getIntervalOverlaps_eq (lowerCut_lt_top start) ?_⟩
    · rw [coversInterval_eq (lowerCut_lt_top start)] at covers ⊢
      exact congrArg Except.ok (Bool.eq_false_iff.mpr fun isTrue => covers (congrArg Except.ok isTrue))
    · rw [(wf.coversInterval_unbounded_iff start).not] at covers
      rw [isIter]
      refine collect_stop ?_
      match isInner : (tree.overlapIter start .unbounded).inner with
      | [] => exact ⟨_, rfl⟩
      | lim :: rest =>
        rw [isInner] at covers mono isAfter
        have notBound : lim.asBound ≠ .unbounded := by
          cases lim with
          | lowerUnbounded => exact absurd (isAfter _ mem_cons_self) Cut.not_lt_bottom
          | upperUnbounded =>
            refine absurd (congrArg _ (List.eq_nil_iff_forall_not_mem.mpr ?_)) covers
            intro later mem
            exact Cut.not_top_lt ((pairwise_cons.mp mono).1 later mem)
          | lowerInclusive _ | lowerExclusive _ | upperInclusive _ | upperExclusive _ =>
            exact nofun
        have isBound : maxBound (some .unbounded) lim.asBound = (none, some .unbounded) := by
          cases bound : lim.asBound with
          | unbounded => exact absurd bound notBound
          | included _ | excluded _ => rfl
        cases isLower : lim.isLower <;>
          exact ⟨_, by simp [next, isUpper, isLower, isBound]; rfl⟩

end

end IntervalTreeSet

/-- The overlaps are exact: disjoint ranges that are not empty, in increasing order, and
together what the range shares with the tree. -/
def OverlapsExactly [LinearOrder T] (tree : IntervalTreeSet T) (start stop : Bound T) : Prop :=
  ∃ items, tree.getIntervalOverlaps start stop = .ok items ∧
    (∀ item ∈ items, checkRange compare item.1 item.2 = .ok ⟨⟩) ∧
    (items.Pairwise fun left right =>
      Disjoint (rangePoints left.1 left.2) (rangePoints right.1 right.2)) ∧
    (items.Pairwise fun left right => upperCut left.2 ≤ lowerCut right.1) ∧
    unionOf items = rangePoints start stop ∩ tree.points

/-- A range without an end is disjoint from the tree or covered by it, and a range that
ends with a value reaches no interval that ends just before the value. -/
def OverlapsCondition [LinearOrder T] (tree : IntervalTreeSet T) (start stop : Bound T) : Prop :=
  (stop = .unbounded → Disjoint (rangePoints start stop) tree.points ∨
    tree.coversInterval start stop = .ok true) ∧
  ∀ value, stop = .included value → lowerCut start < .before value →
    .upperExclusive value ∉ tree.boundSet

section

variable [LinearOrder T] {tree : IntervalTreeSet T} {start stop : Bound T}

theorem overlapsExactly_of_ascending {lower : Cut T}
    (collected : tree.getIntervalOverlaps start stop = .ok items) (ascending : Ascending lower items)
    (union : unionOf items = rangePoints start stop ∩ tree.points) :
    OverlapsExactly tree start stop :=
  ⟨items, collected, fun item mem => checkRange_ok_iff.mpr (ascending.nonempty item mem),
    ascending.disjoint, ascending.increasing, union⟩

theorem OverlapsExactly.union_eq (exact_ : OverlapsExactly tree start stop)
    (collected : tree.getIntervalOverlaps start stop = .ok items) :
    unionOf items = rangePoints start stop ∩ tree.points := by
  obtain ⟨others, isOthers, -, -, -, union⟩ := exact_
  rw [show items = others from Except.ok.inj (collected.symm.trans isOthers), union]

theorem IntervalTreeSet.WellFormed.not_mem_of_upperExclusive (wf : tree.WellFormed)
    {value : T} (stored : .upperExclusive value ∈ tree.boundSet) : value ∉ tree.points := by
  obtain ⟨before, after, boundSetEq⟩ := List.append_of_mem stored
  have alternates := wf.alternates
  have mono := wf.increasing
  rw [boundSetEq] at alternates mono
  obtain ⟨middle, beforeAlternates, isUpper, -⟩ := alternates_append.mp alternates
  obtain rfl : false = middle := isUpper
  obtain ⟨-, afterIncreasing, less⟩ := List.pairwise_append.mp mono
  rw [wf.mem_points_iff, boundSetEq, sideOf_append_of_below beforeAlternates
    fun endpoint mem => (less endpoint mem _ mem_cons_self).le, sideOf_cons,
    if_pos (show (Endpoint.upperExclusive value).cut.IsBelow value from le_rfl),
    sideOf_of_not_below]
  · simp
  · intro endpoint mem isBelow
    exact ((pairwise_cons.mp afterIncreasing).1 endpoint mem).not_ge isBelow

/-- Overlaps with an interval that has no end. -/
theorem overlapsExactly_unbounded_iff (wf : tree.WellFormed) :
    OverlapsExactly tree start .unbounded ↔
      Disjoint (rangePoints start .unbounded) tree.points ∨
        tree.coversInterval start .unbounded = .ok true := by
  have less := IntervalTreeSet.lowerCut_lt_top start
  rcases wf.getIntervalOverlaps_unbounded start with ⟨covers, collected⟩ | ⟨covers, collected⟩
  · refine ⟨fun _ => .inr covers, fun _ => ?_⟩
    refine overlapsExactly_of_ascending collected ((ascending_nil _).cons less le_rfl) ?_
    have inside := IntervalTreeSet.mem_points_of_coversInterval wf less covers
    rw [← rangePoints_eq] at inside
    rw [Set.inter_eq_left.mpr inside]
    simp [unionOf]
  · have notCovers : tree.coversInterval start .unbounded ≠ .ok true := by simp [covers]
    have nothing : unionOf ([] : List (Bound T × Bound T)) = ∅ := by simp [unionOf]
    rw [or_iff_left notCovers, Set.disjoint_iff_inter_eq_empty]
    constructor
    · intro isExact
      rw [← isExact.union_eq collected, nothing]
    · intro isDisjoint
      exact overlapsExactly_of_ascending collected (ascending_nil (lowerCut start))
        (nothing.trans isDisjoint.symm)

theorem overlapsExactly_bounded_iff (wf : tree.WellFormed)
    (less : lowerCut start < upperCut stop) (bounded : stop ≠ .unbounded) :
    OverlapsExactly tree start stop ↔ ∀ value, stop = .included value →
      lowerCut start < .before value → .upperExclusive value ∉ tree.boundSet := by
  obtain ⟨items, collected, ascending, union⟩ := wf.getIntervalOverlaps_bounded less bounded
  constructor
  · rintro isExact value rfl above stored
    have isMember : value ∈ unionOf items :=
      (union value).mpr ⟨⟨above.le, by simp [Cut.IsBelow, upperCut]⟩, .inr ⟨rfl, stored, above⟩⟩
    rw [isExact.union_eq collected] at isMember
    exact wf.not_mem_of_upperExclusive stored isMember.2
  · intro condition
    refine overlapsExactly_of_ascending collected ascending (Set.ext fun point => ?_)
    have notEnds : ¬tree.EndsBefore start stop point := by
      rintro ⟨isStop, stored, above⟩
      exact condition point isStop above stored
    rw [union, or_iff_left notEnds, rangePoints_eq]
    rfl

end

/-- The overlaps of a valid range with a tree that inserts and removes lead to are exact
exactly under the condition. -/
theorem overlapsExactly_iff [LinearOrder T] {ops : List (Op T)} {tree : IntervalTreeSet T}
    (ran : ops.foldlM Op.apply {} = .ok tree) {start stop : Bound T}
    (checked : checkRange compare start stop = .ok ⟨⟩) :
    OverlapsExactly tree start stop ↔ OverlapsCondition tree start stop := by
  have wellFormed := wellFormed_of_run ran
  by_cases bounded : stop = .unbounded
  · subst bounded
    rw [overlapsExactly_unbounded_iff wellFormed, OverlapsCondition]
    simp
  · rw [overlapsExactly_bounded_iff wellFormed (checkRange_ok_iff.mp checked) bounded,
      OverlapsCondition]
    simp [bounded]

theorem twoIntervals_overlapsExactly :
    OverlapsExactly twoIntervals (.included 3) (.included 8) := by
  have ran : [Op.insertInterval (.included 2) (.excluded 5), .insertPoint 8].foldlM Op.apply {} =
      .ok twoIntervals := rfl
  refine (overlapsExactly_iff ran rfl).mpr ⟨nofun, ?_⟩
  simp [twoIntervals]

/-- A range up to the value that an interval ends just before yields that value, and a
range without an end yields nothing of an interval with one. -/
theorem twoIntervals_not_overlapsExactly :
    [Op.insertInterval (.included 2) (.excluded 5), .insertPoint 8].foldlM Op.apply {} =
        .ok twoIntervals ∧
      twoIntervals.getIntervalOverlaps (.included 3) (.included 5) =
        .ok [(.included 3, .included 5)] ∧
      ¬OverlapsExactly twoIntervals (.included 3) (.included 5) ∧
      twoIntervals.getIntervalOverlaps (.included 3) .unbounded = .ok [] ∧
      ¬OverlapsExactly twoIntervals (.included 3) .unbounded := by
  have ran : [Op.insertInterval (.included 2) (.excluded 5), .insertPoint 8].foldlM Op.apply {} =
      .ok twoIntervals := rfl
  have wellFormed := wellFormed_of_run ran
  refine ⟨ran, rfl, ?_, rfl, ?_⟩
  · have less : lowerCut (.included 3) < upperCut (.included 5) := checkRange_ok_iff.mp rfl
    rw [overlapsExactly_bounded_iff wellFormed less nofun]
    intro condition
    exact condition 5 rfl (by simp [lowerCut]) (by simp [twoIntervals])
  · rw [overlapsExactly_unbounded_iff wellFormed]
    rintro (disjoint | covers)
    · exact Set.disjoint_left.mp disjoint (show rangeContains compare _ _ 3 = true from rfl)
        ((IntervalTreeSet.containsPoint_iff wellFormed 3).mp rfl)
    · cases covers

end ReadySet.MergingIntervalTree
