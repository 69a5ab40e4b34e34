import ReadySet.Library.Cuts
import ReadySet.Library.Sections
import ReadySet.MergingIntervalTree.Tree

/-!
Owns the meaning of an interval tree. Every endpoint is a cut between points; the
order of the endpoints is the order of the cuts, with lower endpoints before upper
ones at the same cut. A tree is well formed when its cuts increase and lower and upper
endpoints alternate (`WellFormed`), and then its points are those with an upper
endpoint next (`mem_points_iff`). Inserting and removing replace the endpoints within
a range, so they keep this and change exactly the points of the range.
-/

namespace ReadySet.MergingIntervalTree

open Data Dataflow DataflowState Library IntervalTreeSet List

universe u

variable {T : Type u} {endpoint : Endpoint T} {start : Bound T} {stop : Bound T}

open Cut (between)

/-! ## Endpoints as cuts -/

/-- The cut of a bound that starts a range. -/
def lowerCut : Bound T → Cut T
  | .included value => .before value
  | .excluded value => .after value
  | .unbounded => .bottom

/-- The cut of a bound that ends a range. -/
def upperCut : Bound T → Cut T
  | .included value => .after value
  | .excluded value => .before value
  | .unbounded => .top

namespace Endpoint

def cut : Endpoint T → Cut T
  | lowerUnbounded => .bottom
  | lowerInclusive value | upperExclusive value => .before value
  | lowerExclusive value | upperInclusive value => .after value
  | upperUnbounded => .top

variable (bound : Bound T)

@[simp] theorem cut_lower : (lower bound).cut = lowerCut bound := by
  cases bound <;> rfl

@[simp] theorem cut_upper : (upper bound).cut = upperCut bound := by
  cases bound <;> rfl

@[simp] theorem isLower_lower : (lower bound).isLower = true := by
  cases bound <;> rfl

@[simp] theorem isLower_upper : (upper bound).isLower = false := by
  cases bound <;> rfl

@[simp] theorem asBound_lower : (lower bound).asBound = bound := by
  cases bound <;> rfl

@[simp] theorem asBound_upper : (upper bound).asBound = bound := by
  cases bound <;> rfl

theorem lowerCut_asBound (isLower : endpoint.isLower = true) :
    lowerCut endpoint.asBound = endpoint.cut := by
  cases endpoint <;> first | rfl | nomatch isLower

theorem upperCut_asBound (isUpper : endpoint.isLower = false) :
    upperCut endpoint.asBound = endpoint.cut := by
  cases endpoint <;> first | rfl | nomatch isUpper

theorem cut_upperComplement (bounded : start ≠ .unbounded) :
    (upperComplement start).cut = lowerCut start := by
  cases start <;> first | rfl | exact absurd rfl bounded

theorem cut_lowerComplement (bounded : stop ≠ .unbounded) :
    (lowerComplement stop).cut = upperCut stop := by
  cases stop <;> first | rfl | exact absurd rfl bounded

@[simp] theorem isLower_upperComplement : (upperComplement bound).isLower = false := by
  cases bound <;> rfl

@[simp] theorem isLower_lowerComplement : (lowerComplement bound).isLower = true := by
  cases bound <;> rfl

variable [LinearOrder T] {left right : Endpoint T}

theorem cmp_eq_lt : left.cmp right = .lt ↔
    left.cut < right.cut ∨ left.cut = right.cut ∧ left.isLower = true ∧ right.isLower = false := by
  cases left <;> cases right <;>
    simp [cmp, cut, isLower, Ordering.then_eq_lt, compare_lt_iff_lt, le_iff_lt_or_eq]

theorem cmp_eq_eq : left.cmp right = .eq ↔ left = right := by
  cases left <;> cases right <;> simp [cmp]

theorem cmp_eq_gt : left.cmp right = .gt ↔
    right.cut < left.cut ∨ left.cut = right.cut ∧ left.isLower = false ∧ right.isLower = true := by
  cases left <;> cases right <;>
    simp [cmp, cut, isLower, Ordering.then_eq_gt, compare_gt_iff_gt, le_iff_lt_or_eq']

end Endpoint

open Endpoint (asBound_lower asBound_upper cmp_eq_lt isUpper lower lowerComplement pair upperComplement)

section

variable [LinearOrder T] {point : T}

/-- `RangeBounds::contains`, in terms of cuts. -/
theorem rangeContains_iff : rangeContains compare start stop point = true ↔
    point ∈ between (lowerCut start) (upperCut stop) := by
  cases start <;> cases stop <;>
    simp [rangeContains, between, Cut.IsBelow, lowerCut, upperCut, Ordering.isGE_iff_ne_lt,
      Ordering.isLE_iff_ne_gt, compare_gt_iff_gt, compare_lt_iff_lt]

/-- `check_range` passes exactly the ranges between increasing cuts. -/
theorem checkRange_ok_iff :
    checkRange compare start stop = .ok ⟨⟩ ↔ lowerCut start < upperCut stop := by
  have strict : ∀ first last : T, checkRange.strict compare first last = .ok ⟨⟩ ↔ first < last := by
    intro first last
    rw [checkRange.strict, checkRange.notGreater]
    rcases lt_trichotomy first last with less | same | greater
    · simp [compare_lt_iff_lt.mpr less, less]
    · simp [same]
    · simp [compare_gt_iff_gt.mpr greater, greater.le]
  have notGreater : ∀ first last : T,
      checkRange.notGreater compare first last = .ok ⟨⟩ ↔ first ≤ last := by
    intro first last
    rw [checkRange.notGreater]
    rcases lt_trichotomy first last with less | same | greater
    · simp [compare_lt_iff_lt.mpr less, less.le]
    · simp [same]
    · simp [compare_gt_iff_gt.mpr greater, greater]
  cases start <;> cases stop <;> simp [checkRange, lowerCut, upperCut, strict, notGreater]

end

/-! ## Well-formed trees -/

/-- Lower and upper endpoints alternate, from an expected side to the next one. -/
def Alternates (side : Bool) : List (Endpoint T) → Bool → Prop
  | [], last => side = last
  | endpoint :: rest, last => endpoint.isLower = side ∧ Alternates (!side) rest last

variable {side last : Bool} {first second : List (Endpoint T)}

theorem alternates_append :
    Alternates side (first ++ second) last ↔
      ∃ middle, Alternates side first middle ∧ Alternates middle second last := by
  induction first generalizing side with
  | nil => simp [Alternates]
  | cons endpoint rest ih =>
    simp [Alternates, ih, and_assoc]

theorem Alternates.last_eq {endpoints : List (Endpoint T)}
    (alternates : Alternates side endpoints last) : last = (side ^^ endpoints.length.bodd) := by
  induction endpoints generalizing side with
  | nil => simpa using alternates.symm
  | cons endpoint rest ih =>
    rw [ih alternates.2]
    simp

section

variable {rest : List (Endpoint T)}

theorem Alternates.head_isLower (alternates : Alternates side (endpoint :: rest) last) :
    endpoint.isLower = side := alternates.1

theorem Alternates.getLast_isLower (alternates : Alternates side (rest.concat endpoint) last) :
    endpoint.isLower = !last := by
  rw [concat_eq_append] at alternates
  obtain ⟨middle, -, isLower, isLast⟩ := alternates_append.mp alternates
  rw [isLower, ← show (!middle) = last from isLast, Bool.not_not]

end

/-- The cuts increase, and the endpoints alternate from a lower to an upper one. -/
structure IntervalTreeSet.WellFormed [LinearOrder T] (tree : IntervalTreeSet T) : Prop where
  increasing : tree.boundSet.Pairwise fun left right => left.cut < right.cut
  alternates : Alternates true tree.boundSet true

section

variable [LinearOrder T]

def IntervalTreeSet.points (tree : IntervalTreeSet T) : Set T :=
  {point | ∃ interval ∈ tree.intervals, rangeContains compare interval.1 interval.2 point = true}

/-- The side that is expected at a point: false for points inside of an interval. -/
def sideOf (side : Bool) (endpoints : List (Endpoint T)) (point : T) : Bool :=
  sideAt side (endpoints.map Endpoint.cut) point

variable {endpoints : List (Endpoint T)} {point : T}

theorem sideOf_cons :
    sideOf side (endpoint :: endpoints) point =
      if endpoint.cut.IsBelow point then sideOf (!side) endpoints point else side := rfl

theorem sideOf_append_of_below (alternates : Alternates side first last)
    (below : ∀ endpoint ∈ first, endpoint.cut.IsBelow point) :
    sideOf side (first ++ second) point = sideOf last second point := by
  have cutsBelow : ∀ cut ∈ first.map Endpoint.cut, cut.IsBelow point := by
    intro cut mem
    obtain ⟨endpoint, isEndpoint, rfl⟩ := mem_map.mp mem
    exact below endpoint isEndpoint
  rw [sideOf, map_append, sideAt_append_of_below cutsBelow, length_map, ← alternates.last_eq]
  rfl

section

variable (above : ∀ endpoint ∈ second, ¬endpoint.cut.IsBelow point)

include above

theorem sideOf_append_of_not_below :
    sideOf side (first ++ second) point = sideOf side first point := by
  rw [sideOf, map_append]
  refine sideAt_append_of_not_below fun cut mem => ?_
  obtain ⟨endpoint, isEndpoint, rfl⟩ := mem_map.mp mem
  exact above endpoint isEndpoint

theorem sideOf_of_not_below : sideOf side second point = side := by
  rw [← nil_append second, sideOf_append_of_not_below above]
  rfl

end

theorem isBelow_of_sideOf {cut : Cut T} (above : ∀ endpoint ∈ endpoints, cut ≤ endpoint.cut)
    (other : sideOf side endpoints point = !side) : cut.IsBelow point := by
  by_contra notBelow
  have same : sideOf side endpoints point = side := sideOf_of_not_below
    fun endpoint mem isBelow => notBelow (isBelow.of_le (above endpoint mem))
  exact Bool.not_ne_self side (other.symm.trans same)

/-- A point lies in an interval just if it is on the inner side of the endpoints. -/
theorem exists_pair_iff (mono : endpoints.Pairwise fun left right => left.cut < right.cut)
    (alternates : Alternates true endpoints true) :
    (∃ interval ∈ intervals.pairs endpoints,
      rangeContains compare interval.1 interval.2 point = true) ↔
        sideOf true endpoints point = false := by
  induction endpoints using intervals.pairs.induct with
  | case1 lo next rest ih =>
    obtain ⟨isLower, isUpper, restAlternates⟩ := alternates
    obtain ⟨aboveLo, mono⟩ := pairwise_cons.mp mono
    obtain ⟨aboveNext, restIncreasing⟩ := pairwise_cons.mp mono
    have restIff := ih restIncreasing restAlternates
    have notLater (notBelow : ¬next.cut.IsBelow point) : sideOf true rest point = true :=
      sideOf_of_not_below fun later mem isBelow =>
        notBelow (isBelow.of_le (aboveNext later mem).le)
    have loNext : lo.cut ≤ next.cut := (aboveLo next mem_cons_self).le
    rw [intervals.pairs, exists_mem_cons_iff, restIff, rangeContains_iff,
      Endpoint.lowerCut_asBound isLower, Endpoint.upperCut_asBound isUpper]
    simp only [sideOf, map_cons, sideAt]
    by_cases belowNext : next.cut.IsBelow point
    · have belowLo := belowNext.of_le loNext
      simp [between, belowNext, belowLo]
    · have outside := notLater belowNext
      rw [sideOf] at outside
      by_cases belowLo : lo.cut.IsBelow point
      · simp [between, belowNext, belowLo]
      · simp [between, outside]
  | case2 endpoints notPair =>
    rcases endpoints with _ | ⟨lo, _ | ⟨next, rest⟩⟩
    · simp [intervals.pairs, sideOf, sideAt]
    · cases alternates.2
    · exact absurd rfl (notPair lo next rest)

theorem IntervalTreeSet.WellFormed.mem_points_iff {tree : IntervalTreeSet T}
    (wf : tree.WellFormed) : point ∈ tree.points ↔ sideOf true tree.boundSet point = false :=
  exists_pair_iff wf.increasing wf.alternates

end

/-! ## The endpoints within a range -/

namespace IntervalTreeSet

variable [LinearOrder T] {tree : IntervalTreeSet T} {lower upper : Cut T}

/-- The endpoints before, within and after a range, with the sides expected in between. -/
structure Split (tree : IntervalTreeSet T) (lower upper : Cut T) where
  (before within after : List (Endpoint T))
  (first second : Bool)
  boundSet_eq : tree.boundSet = before ++ (within ++ after)
  before_lt : ∀ endpoint ∈ before, endpoint.cut < lower
  le_within : ∀ endpoint ∈ within, lower ≤ endpoint.cut
  within_le : ∀ endpoint ∈ within, endpoint.cut ≤ upper
  lt_after : ∀ endpoint ∈ after, upper < endpoint.cut
  before_alternates : Alternates true before first
  within_alternates : Alternates first within second
  after_alternates : Alternates second after true

namespace Split

variable (split : tree.Split lower upper)

/-- Other endpoints within the range. -/
def replaced (endpoints : List (Endpoint T)) : IntervalTreeSet T :=
  ⟨split.before ++ (endpoints ++ split.after)⟩

theorem exists_before (inside : split.first = false) : ∃ endpoint, endpoint ∈ split.before := by
  refine exists_mem_of_ne_nil _ fun empty => Bool.false_ne_true ?_
  have alternates := split.before_alternates
  rw [empty, inside] at alternates
  exact Eq.symm alternates

theorem exists_after (inside : split.second = false) : ∃ endpoint, endpoint ∈ split.after := by
  refine exists_mem_of_ne_nil _ fun empty => Bool.false_ne_true ?_
  have alternates := split.after_alternates
  rw [empty, inside] at alternates
  exact alternates

variable {split} {endpoints : List (Endpoint T)}

/-- A section is replaced by endpoints that alternate. -/
theorem replaced_wellFormed (wf : tree.WellFormed) (less : lower < upper)
    (mono : endpoints.Pairwise fun left right => left.cut < right.cut)
    (bounded : ∀ endpoint ∈ endpoints, lower ≤ endpoint.cut ∧ endpoint.cut ≤ upper)
    (alternates : Alternates split.first endpoints split.second) :
    (split.replaced endpoints).WellFormed := by
  have stored := wf.increasing
  rw [split.boundSet_eq] at stored
  obtain ⟨beforeIncreasing, rest, -⟩ := pairwise_append.mp stored
  obtain ⟨-, afterIncreasing, -⟩ := pairwise_append.mp rest
  constructor
  · refine pairwise_append.mpr ⟨beforeIncreasing,
      pairwise_append.mpr ⟨mono, afterIncreasing, ?_⟩, ?_⟩
    · intro left isLeft right isRight
      exact (bounded left isLeft).2.trans_lt (split.lt_after right isRight)
    · intro left isLeft right isRight
      refine (split.before_lt left isLeft).trans_le ?_
      rcases mem_append.mp isRight with inside | isAfter
      · exact (bounded right inside).1
      · exact (less.trans (split.lt_after right isAfter)).le
  · exact alternates_append.mpr ⟨_, split.before_alternates,
      alternates_append.mpr ⟨_, alternates, split.after_alternates⟩⟩

/-- Replacing the endpoints of a section changes the points of the section only. -/
theorem sideOf_replaced (less : lower < upper)
    (bounded : ∀ endpoint ∈ endpoints, lower ≤ endpoint.cut ∧ endpoint.cut ≤ upper)
    (alternates : Alternates split.first endpoints split.second) (point : T) :
    sideOf true (split.replaced endpoints).boundSet point =
      if point ∈ between lower upper then sideOf split.first endpoints point
      else sideOf true tree.boundSet point := by
  rw [replaced, split.boundSet_eq]
  by_cases belowUpper : upper.IsBelow point
  · -- Only the endpoints after the range are left to decide.
    have belowLower := belowUpper.of_le less.le
    have beforeBelow : ∀ endpoint ∈ split.before, endpoint.cut.IsBelow point :=
      fun endpoint mem => belowLower.of_le (split.before_lt endpoint mem).le
    rw [if_neg fun inside => inside.2 belowUpper,
      sideOf_append_of_below split.before_alternates beforeBelow,
      sideOf_append_of_below split.before_alternates beforeBelow,
      sideOf_append_of_below alternates fun endpoint mem =>
        belowUpper.of_le (bounded endpoint mem).2,
      sideOf_append_of_below split.within_alternates fun endpoint mem =>
        belowUpper.of_le (split.within_le endpoint mem)]
  · have afterAbove : ∀ endpoint ∈ split.after, ¬endpoint.cut.IsBelow point :=
      fun endpoint mem isBelow => belowUpper (isBelow.of_le (split.lt_after endpoint mem).le)
    by_cases belowLower : lower.IsBelow point
    · rw [if_pos ⟨belowLower, belowUpper⟩,
        sideOf_append_of_below split.before_alternates fun endpoint mem =>
          belowLower.of_le (split.before_lt endpoint mem).le,
        sideOf_append_of_not_below afterAbove]
    · -- Nothing from the range on is below the point.
      rw [if_neg fun inside => belowLower inside.1, sideOf_append_of_not_below,
        sideOf_append_of_not_below]
      · intro endpoint mem isBelow
        rcases mem_append.mp mem with inside | isAfter
        · exact belowLower (isBelow.of_le (split.le_within endpoint inside))
        · exact afterAbove endpoint isAfter isBelow
      · intro endpoint mem isBelow
        rcases mem_append.mp mem with inside | isAfter
        · exact belowLower (isBelow.of_le (bounded endpoint inside).1)
        · exact afterAbove endpoint isAfter isBelow

end Split

theorem cmp_lower_isLT :
    (endpoint.cmp (.lower start)).isLT = true ↔ endpoint.cut < lowerCut start := by
  rw [Ordering.isLT_iff_eq_lt, cmp_eq_lt]
  simp

theorem upper_cmp_isGE :
    ((Endpoint.upper stop).cmp endpoint).isGE = true ↔ endpoint.cut ≤ upperCut stop := by
  rw [Ordering.isGE_iff_ne_lt, cmp_eq_lt.not]
  simp

theorem mem_rangeFrom (wf : tree.WellFormed)
    (mem : endpoint ∈ rangeFrom tree.boundSet (.lower start)) : lowerCut start ≤ endpoint.cut := by
  have notLess := false_of_mem_dropWhile (wf.increasing.imp fun isLess isLT =>
    cmp_lower_isLT.mpr (isLess.trans (cmp_lower_isLT.mp isLT))) mem
  exact not_lt.mp fun isLess => Bool.false_ne_true (notLess ▸ cmp_lower_isLT.mpr isLess)

/-- The tree as it is cut by an interval. -/
theorem exists_split (wf : tree.WellFormed) (start stop : Bound T) :
    ∃ split : tree.Split (lowerCut start) (upperCut stop),
      tree.removedNodes (.lower start) (.upper stop) = split.within ∧
      tree.startsInside (.lower start) (.upper stop) = !split.first ∧
      tree.endsInside (.lower start) (.upper stop) = !split.second := by
  set before := tree.boundSet.takeWhile fun endpoint => (endpoint.cmp (.lower start)).isLT
  set range := rangeFrom tree.boundSet (.lower start) with isRange
  set within := tree.removedNodes (.lower start) (.upper stop) with isWithin
  set after := range.dropWhile fun lim => ((Endpoint.upper stop).cmp lim).isGE with isAfter
  have rangeEq : within ++ after = range := takeWhile_append_dropWhile
  have boundSetEq : tree.boundSet = before ++ (within ++ after) := by
    rw [rangeEq]
    exact takeWhile_append_dropWhile.symm
  obtain ⟨first, beforeAlternates, rangeAlternates⟩ :=
    alternates_append.mp (boundSetEq ▸ wf.alternates)
  obtain ⟨second, withinAlternates, afterAlternates⟩ := alternates_append.mp rangeAlternates
  have rangeIncreasing : range.Pairwise fun left right => left.cut < right.cut :=
    wf.increasing.sublist (dropWhile_sublist _)
  have nextIsUpper (empty : within = []) :
      tree.nextIsUpper (.lower start) (.upper stop) = !second := by
    rw [nextIsUpper, ← isRange, ← isAfter]
    cases afterIs : after with
    | nil =>
      rw [afterIs] at afterAlternates
      rw [← rangeEq, empty, afterIs, show second = true from afterAlternates]
      rfl
    | cons lim rest =>
      rw [afterIs] at afterAlternates
      simp [isUpper, afterAlternates.head_isLower]
  have starts : tree.startsInside (.lower start) (.upper stop) = !first := by
    rw [startsInside, ← isWithin]
    cases withinIs : within with
    | nil =>
      rw [withinIs] at withinAlternates
      rw [List.head?_nil, Option.map_none, Option.getD_none, nextIsUpper withinIs,
        show first = second from withinAlternates]
    | cons endpoint rest =>
      rw [withinIs] at withinAlternates
      simp [isUpper, withinAlternates.head_isLower]
  have ends : tree.endsInside (.lower start) (.upper stop) = !second := by
    rw [endsInside, ← isWithin]
    rcases eq_nil_or_concat within with withinIs | ⟨rest, endpoint, withinIs⟩
    · rw [withinIs, List.getLast?_nil, Option.map_none, Option.getD_none, nextIsUpper withinIs]
    · rw [withinIs] at withinAlternates
      simp [withinIs, withinAlternates.getLast_isLower]
  refine ⟨⟨before, within, after, first, second, boundSetEq, ?_, ?_, ?_, ?_, beforeAlternates,
    withinAlternates, afterAlternates⟩, rfl, starts, ends⟩
  · intro endpoint mem
    exact cmp_lower_isLT.mp (mem_takeWhile_imp mem :)
  · intro endpoint mem
    have inRange : endpoint ∈ range := rangeEq ▸ mem_append_left _ mem
    exact mem_rangeFrom wf inRange
  · intro endpoint mem
    exact upper_cmp_isGE.mp (mem_takeWhile_imp mem :)
  · intro endpoint mem
    have notWithin := false_of_mem_dropWhile (rangeIncreasing.imp fun isLess isGE =>
      upper_cmp_isGE.mpr (isLess.le.trans (upper_cmp_isGE.mp isGE))) mem
    exact not_le.mp fun isLess => Bool.false_ne_true (notWithin ▸ upper_cmp_isGE.mpr isLess)

theorem foldl_removeEndpoint (set removed : List (Endpoint T)) :
    removed.foldl removeEndpoint set = set.filter fun other => decide (other ∉ removed) := by
  induction removed generalizing set with
  | nil => simp
  | cons endpoint rest ih =>
    rw [foldl_cons, ih, removeEndpoint, filter_filter]
    refine filter_congr fun other _ => ?_
    rw [Bool.eq_iff_iff]
    simp [Endpoint.cmp_eq_eq, and_comm, eq_comm (a := endpoint)]

theorem outside_eq (split : tree.Split (lowerCut start) (upperCut stop))
    (isWithin : tree.removedNodes (.lower start) (.upper stop) = split.within) :
    tree.outside (.lower start) (.upper stop) = split.before ++ split.after := by
  have beforeKept : split.before.filter (fun other => decide (other ∉ split.within)) =
      split.before := by
    refine filter_eq_self.mpr fun endpoint mem => decide_eq_true fun inside => ?_
    exact (split.before_lt endpoint mem).not_ge (split.le_within endpoint inside)
  have afterKept : split.after.filter (fun other => decide (other ∉ split.within)) =
      split.after := by
    refine filter_eq_self.mpr fun endpoint mem => decide_eq_true fun inside => ?_
    exact (split.lt_after endpoint mem).not_ge (split.within_le endpoint inside)
  have withinRemoved : split.within.filter (fun other => decide (other ∉ split.within)) = [] :=
    filter_eq_nil_iff.mpr fun endpoint mem kept => of_decide_eq_true kept mem
  rw [outside, isWithin, foldl_removeEndpoint, split.boundSet_eq, filter_append,
    filter_append, beforeKept, withinRemoved, afterKept, nil_append]

theorem insertEndpoint_middle (above : ∀ other ∈ first, other.cut < endpoint.cut)
    (below : ∀ other ∈ second, endpoint.cut < other.cut) :
    insertEndpoint endpoint (first ++ second) = first ++ endpoint :: second := by
  induction first with
  | nil =>
    cases second with
    | nil => rfl
    | cons other rest =>
      rw [nil_append, insertEndpoint, cmp_eq_lt.mpr (.inl (below other mem_cons_self))]
      rfl
  | cons other rest ih =>
    rw [cons_append, insertEndpoint, Endpoint.cmp_eq_gt.mpr (.inl (above other mem_cons_self)),
      ih fun later mem => above later (mem_cons_of_mem _ mem)]
    rfl

theorem pair_eq (less : lowerCut start < upperCut stop) :
    pair start stop = .ok (.lower start, .upper stop) := by
  rw [pair, checkRange_ok_iff.mpr less]

/-! ## Inserting and removing -/

/-- The endpoints that take the place of those within a range. -/
def ends (starts stops : Bool) (lo hi : Endpoint T) : List (Endpoint T) :=
  (if starts then [lo] else []) ++ if stops then [hi] else []

section

variable (split : tree.Split lower upper) {starts stops : Bool} {lo hi : Endpoint T}

theorem insertEndpoint_ends (less : lower < upper) (loCut : starts = true → lo.cut = lower)
    (hiCut : stops = true → hi.cut = upper) :
    (let started := if starts then insertEndpoint lo (split.before ++ split.after)
        else split.before ++ split.after
      if stops then insertEndpoint hi started else started) =
      (split.replaced (ends starts stops lo hi)).boundSet := by
  have loAbove (isStart : starts = true) : ∀ other ∈ split.before, other.cut < lo.cut :=
    fun other mem => loCut isStart ▸ split.before_lt other mem
  have loBelow (isStart : starts = true) : ∀ other ∈ split.after, lo.cut < other.cut :=
    fun other mem => loCut isStart ▸ less.trans (split.lt_after other mem)
  have hiBelow (isStop : stops = true) : ∀ other ∈ split.after, hi.cut < other.cut :=
    fun other mem => hiCut isStop ▸ split.lt_after other mem
  have hiAbove (isStop : stops = true) : ∀ other ∈ split.before, other.cut < hi.cut :=
    fun other mem => hiCut isStop ▸ (split.before_lt other mem).trans less
  cases starts with
  | false =>
    cases stops with
    | false => rfl
    | true => exact insertEndpoint_middle (hiAbove rfl) (hiBelow rfl)
  | true =>
    have started := insertEndpoint_middle (loAbove rfl) (loBelow rfl)
    cases stops with
    | false => exact started
    | true =>
      have above : ∀ other ∈ split.before ++ [lo], other.cut < hi.cut := by
        intro other mem
        rcases mem_append.mp mem with isBefore | isLo
        · exact hiAbove rfl other isBefore
        · rw [mem_singleton.mp isLo, loCut rfl, hiCut rfl]
          exact less
      have stopped := insertEndpoint_middle above (hiBelow rfl)
      simpa [started, ends, Split.replaced] using stopped

variable {split} (startsIff : starts = (split.first == side))
  (stopsIff : stops = (split.second == side))
  (isLo : starts = true → lo.cut = lower ∧ lo.isLower = side)
  (isHi : stops = true → hi.cut = upper ∧ hi.isLower = !side)

include startsIff isLo in
theorem alternates_start : Alternates split.first (if starts then [lo] else []) (!side) := by
  by_cases same : split.first = side
  · have isStart : starts = true := by simp [startsIff, same]
    simp [isStart, Alternates, isLo isStart, same]
  · simp [startsIff, Alternates, Bool.eq_not_of_ne same]

include stopsIff isHi in
theorem alternates_stop : Alternates (!side) (if stops then [hi] else []) split.second := by
  by_cases same : split.second = side
  · have isStop : stops = true := by simp [stopsIff, same]
    simp [isStop, Alternates, isHi isStop, same]
  · simp [stopsIff, Alternates, Bool.eq_not_of_ne same]

omit [LinearOrder T] in
include isLo in
theorem cut_start (mem : endpoint ∈ if starts then [lo] else []) : endpoint.cut = lower := by
  obtain ⟨isStart, rfl⟩ : starts = true ∧ endpoint = lo := by simpa using mem
  exact (isLo isStart).1

omit [LinearOrder T] in
include isHi in
theorem cut_stop (mem : endpoint ∈ if stops then [hi] else []) : endpoint.cut = upper := by
  obtain ⟨isStop, rfl⟩ : stops = true ∧ endpoint = hi := by simpa using mem
  exact (isHi isStop).1

include startsIff stopsIff isLo isHi

/-- With endpoints exactly where the side changes, all points of the range are on the
other side. -/
theorem replaced_ends (wf : tree.WellFormed) (less : lower < upper) :
    (split.replaced (ends starts stops lo hi)).WellFormed ∧
      (split.replaced (ends starts stops lo hi)).points = if side then
        tree.points ∪ between lower upper else tree.points \ between lower upper := by
  have started := alternates_start startsIff isLo
  have alternates : Alternates split.first (ends starts stops lo hi) split.second :=
    alternates_append.mpr ⟨!side, started, alternates_stop stopsIff isHi⟩
  have bounded : ∀ endpoint ∈ ends starts stops lo hi,
      lower ≤ endpoint.cut ∧ endpoint.cut ≤ upper := by
    intro endpoint mem
    rcases mem_append.mp mem with isStart | isStop
    · rw [cut_start isLo isStart]
      exact ⟨le_rfl, less.le⟩
    · rw [cut_stop isHi isStop]
      exact ⟨less.le, le_rfl⟩
  have mono : (ends starts stops lo hi).Pairwise fun left right => left.cut < right.cut := by
    refine pairwise_append.mpr ⟨by split <;> simp, by split <;> simp, ?_⟩
    intro left isStart right isStop
    rw [cut_start isLo isStart, cut_stop isHi isStop]
    exact less
  have inside : ∀ point ∈ between lower upper,
      sideOf split.first (ends starts stops lo hi) point = !side := by
    intro point isInside
    rw [ends, sideOf_append_of_not_below fun endpoint isStop =>
      cut_stop isHi isStop ▸ isInside.2]
    have below : sideOf split.first ((if starts then [lo] else []) ++ []) point = !side :=
      sideOf_append_of_below started fun endpoint isStart => cut_start isLo isStart ▸ isInside.1
    rwa [append_nil] at below
  have wellFormedReplaced := Split.replaced_wellFormed wf less mono bounded alternates
  refine ⟨wellFormedReplaced, Set.ext fun point => ?_⟩
  rw [wellFormedReplaced.mem_points_iff, Split.sideOf_replaced less bounded alternates]
  by_cases isInside : point ∈ between lower upper
  · cases side <;> simp [isInside, inside point isInside]
  · cases side <;> simp [isInside, wf.mem_points_iff]

end

section

variable (less : lowerCut start < upperCut stop)
include less

theorem insertInterval_spec (wf : tree.WellFormed) :
    ∃ inserted, tree.insertInterval start stop = .ok inserted ∧ inserted.WellFormed ∧
      inserted.points = tree.points ∪ between (lowerCut start) (upperCut stop) := by
  obtain ⟨split, isWithin, starts, stops⟩ := exists_split wf start stop
  have isLo : (split.first == true) = true →
      (lower start).cut = lowerCut start ∧ (lower start).isLower = true := by simp
  have isHi : (split.second == true) = true →
      (Endpoint.upper stop).cut = upperCut stop ∧ (Endpoint.upper stop).isLower = !true := by simp
  obtain ⟨wellFormed, points⟩ := replaced_ends rfl rfl isLo isHi wf less
  have inserted := insertEndpoint_ends split less (fun starts => (isLo starts).1)
    fun stops => (isHi stops).1
  refine ⟨_, ?_, wellFormed, points⟩
  simp only [insertInterval, pair_eq less, starts, stops, outside_eq split isWithin,
    asBound_lower, asBound_upper]
  refine congrArg (fun boundSet => Except.ok (mk boundSet)) (Eq.trans ?_ inserted)
  cases split.first <;> cases split.second <;> rfl

/-- Removal takes the points of the interval and keeps the tree well formed. -/
theorem removeInterval_spec (wf : tree.WellFormed) :
    ∃ removed, tree.removeInterval start stop = .ok removed ∧ removed.WellFormed ∧
      removed.points = tree.points \ between (lowerCut start) (upperCut stop) := by
  obtain ⟨split, isWithin, starts, stops⟩ := exists_split wf start stop
  have isLo : (split.first == false) = true → (upperComplement start).cut = lowerCut start ∧
        (upperComplement start).isLower = false := by
    intro isInside
    refine ⟨Endpoint.cut_upperComplement ?_, by simp⟩
    rintro rfl
    obtain ⟨endpoint, mem⟩ := split.exists_before (by simpa using isInside)
    exact Cut.not_lt_bottom (split.before_lt endpoint mem)
  have isHi : (split.second == false) = true → (lowerComplement stop).cut = upperCut stop ∧
        (lowerComplement stop).isLower = !false := by
    intro isInside
    refine ⟨Endpoint.cut_lowerComplement ?_, by simp⟩
    rintro rfl
    obtain ⟨endpoint, mem⟩ := split.exists_after (by simpa using isInside)
    exact Cut.not_top_lt (split.lt_after endpoint mem)
  obtain ⟨wellFormed, points⟩ := replaced_ends rfl rfl isLo isHi wf less
  have removed := insertEndpoint_ends split less (fun starts => (isLo starts).1)
    fun stops => (isHi stops).1
  refine ⟨_, ?_, wellFormed, points⟩
  simp only [removeInterval, pair_eq less, starts, stops, outside_eq split isWithin,
    asBound_lower, asBound_upper]
  refine congrArg (fun boundSet => Except.ok (mk boundSet)) (Eq.trans ?_ removed)
  cases split.first <;> cases split.second <;> rfl

end

end IntervalTreeSet

end ReadySet.MergingIntervalTree
