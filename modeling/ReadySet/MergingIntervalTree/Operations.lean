import ReadySet.MergingIntervalTree.Denotation

/-!
Owns sequences of operations on an interval tree: each operation succeeds on a valid
range and is a union or a difference of sets of points (`Op.apply_spec`), so a tree
denotes what the operations so far denote, and `contains_point` and `covers_interval`
answer about that set (`denotes_of_valid`).
-/

namespace ReadySet.MergingIntervalTree

open Data Dataflow DataflowState Library List

universe u

variable {T : Type u} {tree : IntervalTreeSet T}

/-! ## Queries -/

namespace IntervalTreeSet

variable [LinearOrder T] {start stop : Bound T} {point : T}

/-- Behind a cut, or an upper endpoint at it. -/
abbrev Follows (lower : Cut T) (endpoint : Endpoint T) : Prop :=
  lower < endpoint.cut ∨ endpoint.cut = lower ∧ endpoint.isLower = false

section

variable {lower : Cut T} {endpoint : Endpoint T} (follows : Follows lower endpoint)

include follows

theorem Follows.le : lower ≤ endpoint.cut := follows.elim le_of_lt fun same => same.1.ge

theorem Follows.lt_of_lower (isLower : endpoint.isLower = true) : lower < endpoint.cut :=
  follows.resolve_right fun same => Bool.false_ne_true (same.2.symm.trans isLower)

end

theorem cmp_lower_isLE {endpoint : Endpoint T} :
    (endpoint.cmp (.lower start)).isLE = true ↔ ¬Follows (lowerCut start) endpoint := by
  rw [Ordering.isLE_iff_ne_gt, Endpoint.cmp_eq_gt.not]
  simp

/-- The endpoints of a tree before a cut and those that follow it. -/
structure SplitAt (tree : IntervalTreeSet T) (lower : Cut T) (before : List (Endpoint T))
    (middle : Bool) (after : List (Endpoint T)) : Prop where
  wellFormed : tree.WellFormed
  boundSet_eq : tree.boundSet = before ++ after
  before_alternates : Alternates true before middle
  alternates : Alternates middle after true
  isBefore : ∀ endpoint ∈ before, endpoint.cut ≤ lower
  isAfter : ∀ endpoint ∈ after, Follows lower endpoint

theorem WellFormed.splitAt (wf : tree.WellFormed) {lower : Cut T} {p : Endpoint T → Bool}
    (isBefore : ∀ endpoint, p endpoint = true → endpoint.cut ≤ lower)
    (isAfter : ∀ endpoint, p endpoint = false → Follows lower endpoint) :
    (∃ before middle, tree.SplitAt lower before middle (tree.boundSet.dropWhile p)) ∧
      ∀ endpoint ∈ tree.boundSet.dropWhile p, p endpoint = false := by
  have downward : tree.boundSet.Pairwise fun lesser greater => p greater = true → p lesser = true :=
    wf.increasing.imp fun {lesser greater} less isGreater =>
      Bool.not_eq_false _ ▸ fun isLesser =>
        ((isAfter lesser isLesser).le.trans_lt less).not_ge (isBefore greater isGreater)
  have notBefore (endpoint : Endpoint T) (mem : endpoint ∈ tree.boundSet.dropWhile p) :
      p endpoint = false := false_of_mem_dropWhile downward mem
  have boundSetEq : tree.boundSet = tree.boundSet.takeWhile p ++ tree.boundSet.dropWhile p :=
    takeWhile_append_dropWhile.symm
  obtain ⟨middle, beforeAlternates, afterAlternates⟩ :=
    alternates_append.mp (boundSetEq ▸ wf.alternates)
  exact ⟨⟨_, middle, wf, boundSetEq, beforeAlternates, afterAlternates,
    fun endpoint mem => isBefore endpoint (mem_takeWhile_imp mem),
    fun endpoint mem => isAfter endpoint (notBefore endpoint mem)⟩, notBefore⟩

/-- The endpoints from a bound on. -/
theorem WellFormed.splitAt_rangeAfter (wf : tree.WellFormed) (start : Bound T) :
    ∃ before middle,
      tree.SplitAt (lowerCut start) before middle (rangeAfter tree.boundSet (.lower start)) := by
  refine (wf.splitAt (fun endpoint isLE => ?_) fun endpoint notLE => ?_).1
  · exact not_lt.mp fun less => cmp_lower_isLE.mp isLE (.inl less)
  · by_contra isBefore
    exact Bool.false_ne_true (notLE ▸ cmp_lower_isLE.mpr isBefore)

section

variable {lower : Cut T} {before after : List (Endpoint T)} {middle : Bool}

section

variable (split : tree.SplitAt lower before middle after)

include split

theorem SplitAt.increasing_append :
    (before ++ after).Pairwise fun left right => left.cut < right.cut :=
  split.boundSet_eq ▸ split.wellFormed.increasing

theorem SplitAt.increasing : after.Pairwise fun left right => left.cut < right.cut :=
  (List.pairwise_append.mp split.increasing_append).2.1

theorem SplitAt.mem_points_iff (below : lower.IsBelow point) :
    point ∈ tree.points ↔ sideOf middle after point = false := by
  rw [split.wellFormed.mem_points_iff, split.boundSet_eq,
    sideOf_append_of_below split.before_alternates fun endpoint mem =>
      below.of_le (split.isBefore endpoint mem)]

end

/-- What precedes an upper endpoint ends with a lower one. -/
theorem SplitAt.not_follows (split : tree.SplitAt lower before false after) :
    ∀ endpoint ∈ before, ¬Follows lower endpoint := by
  have mono := (pairwise_append.mp split.increasing_append).1
  have isBefore := split.isBefore
  have alternates := split.before_alternates
  rcases eq_nil_or_concat before with rfl | ⟨early, last, rfl⟩
  · simp
  · have isLower : last.isLower = true := alternates.getLast_isLower
    rw [concat_eq_append] at mono isBefore ⊢
    rintro endpoint mem (above | ⟨same, isUpper⟩)
    · exact (isBefore endpoint mem).not_gt above
    · rcases mem_append.mp mem with isEarly | isLast
      · have less := (pairwise_append.mp mono).2.2 endpoint isEarly last mem_cons_self
        exact (isBefore last (by simp)).not_gt (same ▸ less)
      · rw [mem_singleton.mp isLast, isLower] at isUpper
        nomatch isUpper

/-- Where the endpoints that follow start with a lower one, all of them are behind the cut. -/
theorem SplitAt.lt_of_lower (split : tree.SplitAt lower before true after) :
    ∀ endpoint ∈ after, lower < endpoint.cut := by
  match after with
  | [] => simp
  | limit :: rest =>
    have less := (split.isAfter limit mem_cons_self).lt_of_lower split.alternates.head_isLower
    refine forall_mem_cons.mpr ⟨less, fun endpoint mem => ?_⟩
    exact less.trans ((pairwise_cons.mp split.increasing).1 endpoint mem)

end

/-- `contains_point` looks at the first endpoint after the point only. -/
theorem containsPoint_iff (wf : tree.WellFormed) (point : T) :
    tree.containsPoint point = true ↔ point ∈ tree.points := by
  obtain ⟨before, middle, split⟩ := wf.splitAt_rangeAfter (.included point)
  rw [split.mem_points_iff le_rfl]
  have start : Endpoint.lowerInclusive point = .lower (.included point) := rfl
  rw [containsPoint, start]
  generalize rangeAfter tree.boundSet (.lower (.included point)) = range at split ⊢
  cases range with
  | nil => simp [sideOf, sideAt, show middle = true from split.alternates]
  | cons endpoint rest =>
    have here := split.isAfter endpoint mem_cons_self
    have restAbove : sideOf (!middle) rest point = !middle := by
      refine sideOf_of_not_below fun later mem isBelow => ?_
      have less := (pairwise_cons.mp split.increasing).1 later mem
      exact (here.le.trans_lt less).not_ge isBelow
    rw [sideOf_cons, restAbove, ← split.alternates.head_isLower]
    cases endpoint <;> simp_all [Follows, Endpoint.isLower, Endpoint.cut, Cut.IsBelow, lowerCut,
      Ordering.isGE_iff_ne_lt, compare_gt_iff_gt, compare_lt_iff_lt]

/-- `covers_interval` looks at the first endpoint after the start of the range only. -/
theorem coversInterval_eq (less : lowerCut start < upperCut stop) :
    tree.coversInterval start stop =
      .ok (match (rangeAfter tree.boundSet (.lower start)).head? with
        | some limit => !limit.isLower && decide (upperCut stop ≤ limit.cut)
        | none => false) := by
  simp only [coversInterval, pair_eq less]
  cases (rangeAfter tree.boundSet (.lower start)).head? with
  | none => rfl
  | some limit =>
    have notLess : (limit.cmp (.upper stop)).isGE = decide (upperCut stop ≤ limit.cut) ∨
        limit.isLower = true := by
      cases side : limit.isLower with
      | true => exact .inr rfl
      | false =>
        refine .inl (Bool.eq_iff_iff.mpr ?_)
        rw [Ordering.isGE_iff_ne_lt, Endpoint.cmp_eq_lt.not]
        simp [side]
    cases limit <;> simp_all [Endpoint.isUpper, Endpoint.isLower, Endpoint.cut]

theorem mem_points_of_coversInterval (wf : tree.WellFormed)
    (less : lowerCut start < upperCut stop) (covers : tree.coversInterval start stop = .ok true) :
    ∀ point ∈ Cut.between (lowerCut start) (upperCut stop), point ∈ tree.points := by
  rintro point ⟨belowStart, notBelowStop⟩
  obtain ⟨before, middle, split⟩ := wf.splitAt_rangeAfter start
  rw [coversInterval_eq less] at covers
  rw [split.mem_points_iff belowStart]
  generalize rangeAfter tree.boundSet (.lower start) = range at split covers ⊢
  match range with
  | [] => simp at covers
  | limit :: rest =>
    obtain ⟨isUpper, reaches⟩ : limit.isLower = false ∧ upperCut stop ≤ limit.cut := by
      simpa using covers
    rw [sideOf_cons, if_neg fun isBelow => notBelowStop (isBelow.of_le reaches),
      ← split.alternates.head_isLower, isUpper]

section

variable [DenselyOrdered T] [NoMinOrder T] [NoMaxOrder T] [Nonempty T]

theorem exists_outside {lower upper : Cut T} (less : lower < upper) {rest : List (Endpoint T)}
    (mono : rest.Pairwise fun left right => left.cut < right.cut)
    (above : ∀ endpoint ∈ rest, lower < endpoint.cut) :
    ∃ point ∈ Cut.between lower upper, ∀ side, sideOf side rest point = side := by
  cases rest with
  | nil =>
    obtain ⟨point, isBetween⟩ := Cut.between_nonempty less
    exact ⟨point, isBetween, fun _ => rfl⟩
  | cons limit rest =>
    have lessLimit := above limit mem_cons_self
    obtain ⟨point, isAbove, isBelow⟩ := Cut.between_nonempty (lt_min less lessLimit)
    refine ⟨point, ⟨isAbove, fun below => isBelow (below.of_le (min_le_left _ _))⟩, fun side => ?_⟩
    exact if_neg fun below => isBelow (below.of_le (min_le_right _ _))

/-- Over a dense order covered points make a covered interval. -/
theorem coversInterval_of_points (wf : tree.WellFormed) (less : lowerCut start < upperCut stop)
    (inside : ∀ point ∈ Cut.between (lowerCut start) (upperCut stop), point ∈ tree.points) :
    tree.coversInterval start stop = .ok true := by
  obtain ⟨before, middle, split⟩ := wf.splitAt_rangeAfter start
  have expected : ∀ point ∈ Cut.between (lowerCut start) (upperCut stop),
      sideOf middle (rangeAfter tree.boundSet (.lower start)) point = false :=
    fun point isBetween => (split.mem_points_iff isBetween.1).mp (inside point isBetween)
  rw [coversInterval_eq less]
  generalize rangeAfter tree.boundSet (.lower start) = range at split expected ⊢
  match range with
  | [] =>
    obtain ⟨point, isBetween⟩ := Cut.between_nonempty less
    have side : middle = false := expected point isBetween
    exact absurd (side.symm.trans split.alternates) Bool.false_ne_true
  | limit :: rest =>
    obtain ⟨aboveLimit, restIncreasing⟩ := pairwise_cons.mp split.increasing
    have isMiddle : limit.isLower = middle := split.alternates.head_isLower
    cases middle with
    | true =>
      -- Before a lower endpoint are points outside of the tree.
      obtain ⟨point, isBetween, outside⟩ := exists_outside less split.increasing split.lt_of_lower
      nomatch (outside true).symm.trans (expected point isBetween)
    | false =>
      -- So are points after an upper endpoint within the range.
      suffices reaches : upperCut stop ≤ limit.cut by simp [isMiddle, reaches]
      by_contra notReaches
      obtain ⟨point, ⟨isAbove, isBelow⟩, outside⟩ :=
        exists_outside (not_le.mp notReaches) restIncreasing aboveLimit
      have startLimit := (split.isAfter limit mem_cons_self).le
      have side := expected point ⟨isAbove.of_le startLimit, isBelow⟩
      rw [sideOf_cons, if_pos isAbove, outside] at side
      nomatch side

end

end IntervalTreeSet

/-! ## Sequences -/

/-- The operations that change a tree. -/
inductive Op (T : Type u) where
  | insertInterval (start stop : Bound T)
  | insertPoint (point : T)
  | removeInterval (start stop : Bound T)
  | removePoint (point : T)
deriving DecidableEq, Repr

def rangePoints [LinearOrder T] (start stop : Bound T) : Set T :=
  {point | rangeContains compare start stop point = true}

theorem rangePoints_eq [LinearOrder T] (start stop : Bound T) :
    rangePoints start stop = Cut.between (lowerCut start) (upperCut stop) :=
  Set.ext fun _ => rangeContains_iff

namespace Op

variable [LinearOrder T] {op : Op T}

def apply (tree : IntervalTreeSet T) : Op T → ReadySetResult (IntervalTreeSet T)
  | insertInterval start stop => tree.insertInterval start stop
  | insertPoint point => tree.insertPoint point
  | removeInterval start stop => tree.removeInterval start stop
  | removePoint point => tree.removePoint point

/-- The range of an operation passes `check_range`. -/
def Valid : Op T → Prop
  | insertInterval start stop | removeInterval start stop =>
    checkRange compare start stop = .ok ⟨⟩
  | insertPoint _ | removePoint _ => True

/-- The operation on sets of points. -/
def denote (points : Set T) : Op T → Set T
  | insertInterval start stop => points ∪ rangePoints start stop
  | insertPoint point => points ∪ {point}
  | removeInterval start stop => points \ rangePoints start stop
  | removePoint point => points \ {point}

theorem between_point (point : T) :
    Cut.between (lowerCut (.included point)) (upperCut (.included point)) = {point} := by
  simp [Cut.between, Cut.IsBelow, lowerCut, upperCut, le_antisymm_iff, and_comm]

theorem apply_spec (wf : tree.WellFormed) (valid : op.Valid) :
    ∃ next, op.apply tree = .ok next ∧ next.WellFormed ∧ next.points = op.denote tree.points := by
  have pointLess (point : T) : lowerCut (.included point) < upperCut (.included point) := by
    simp [lowerCut, upperCut]
  cases op with
  | insertInterval start stop =>
    rw [denote, rangePoints_eq]
    exact IntervalTreeSet.insertInterval_spec (checkRange_ok_iff.mp valid) wf
  | insertPoint point =>
    rw [denote, ← between_point]
    exact IntervalTreeSet.insertInterval_spec (pointLess point) wf
  | removeInterval start stop =>
    rw [denote, rangePoints_eq]
    exact IntervalTreeSet.removeInterval_spec (checkRange_ok_iff.mp valid) wf
  | removePoint point =>
    rw [denote, ← between_point]
    exact IntervalTreeSet.removeInterval_spec (pointLess point) wf

theorem valid_of_apply {next : IntervalTreeSet T}
    (applied : op.apply tree = .ok next) : op.Valid := by
  have checked (start stop : Bound T) (pair : Endpoint T × Endpoint T)
      (isPair : Endpoint.pair start stop = .ok pair) : checkRange compare start stop = .ok ⟨⟩ := by
    rw [Endpoint.pair] at isPair
    split at isPair
    · cases isPair
    · next isOk => exact isOk
  cases op with
  | insertPoint point | removePoint point => trivial
  | insertInterval start stop | removeInterval start stop =>
    simp only [apply, IntervalTreeSet.insertInterval, IntervalTreeSet.removeInterval] at applied
    split at applied
    · cases applied
    · next lo hi isPair => exact checked start stop (lo, hi) isPair

end Op

theorem wellFormed_empty [LinearOrder T] : ({} : IntervalTreeSet T).WellFormed :=
  ⟨List.Pairwise.nil, rfl⟩

theorem points_empty [LinearOrder T] : ({} : IntervalTreeSet T).points = ∅ := by
  ext point
  rw [wellFormed_empty.mem_points_iff]
  simp [sideOf, sideAt]

theorem exists_tree [LinearOrder T] (ops : List (Op T)) (valid : ∀ op ∈ ops, op.Valid) :
    ∃ tree, ops.foldlM Op.apply {} = .ok tree ∧ tree.WellFormed ∧
      tree.points = ops.foldl Op.denote ∅ := by
  refine foldlM_invariant Op.apply
    (fun done tree => tree.WellFormed ∧ tree.points = done.foldl Op.denote ∅) ops ?_
    ⟨wellFormed_empty, points_empty⟩
  rintro done op rest tree split ⟨wf, denotes⟩
  obtain ⟨next, applied, nextWellFormed, nextPoints⟩ :=
    op.apply_spec wf (valid op (by simp [split]))
  refine ⟨next, applied, nextWellFormed, ?_⟩
  rw [foldl_concat, nextPoints, denotes]

theorem wellFormed_of_run [LinearOrder T] {ops : List (Op T)}
    (ran : ops.foldlM Op.apply {} = .ok tree) : tree.WellFormed := by
  suffices general : ∀ initial : IntervalTreeSet T, initial.WellFormed →
      ops.foldlM Op.apply initial = .ok tree → tree.WellFormed from
    general {} wellFormed_empty ran
  clear ran
  induction ops with
  | nil =>
    rintro initial wf ⟨⟩
    exact wf
  | cons op ops ih =>
    intro initial wf ran
    obtain ⟨next, applied, ran⟩ := bind_eq_ok.mp ran
    obtain ⟨other, isNext, nextWellFormed, -⟩ := Op.apply_spec wf (Op.valid_of_apply applied)
    obtain rfl : next = other := Except.ok.inj (applied.symm.trans isNext)
    exact ih next nextWellFormed ran

/-- Every sequence of valid operations succeeds. The tree denotes the unions and
differences of the operations, its bounds strictly increase and alternate between lower
and upper ones, and its queries answer about the points that it denotes. -/
theorem denotes_of_valid [LinearOrder T] (ops : List (Op T)) (valid : ∀ op ∈ ops, op.Valid) :
    ∃ tree, ops.foldlM Op.apply {} = .ok tree ∧
      tree.points = ops.foldl Op.denote ∅ ∧
      tree.boundSet.Pairwise (fun left right => left.cmp right = .lt) ∧
      Alternates true tree.boundSet true ∧
      (∀ point, tree.containsPoint point = true ↔ point ∈ tree.points) ∧
      (DenselyOrdered T → NoMinOrder T → NoMaxOrder T → Nonempty T → ∀ start stop,
        checkRange compare start stop = .ok ⟨⟩ →
          (tree.coversInterval start stop = .ok true ↔ rangePoints start stop ⊆ tree.points)) := by
  obtain ⟨tree, ran, wellFormed, denotes⟩ := exists_tree ops valid
  refine ⟨tree, ran, denotes, wellFormed.increasing.imp fun less => Endpoint.cmp_eq_lt.mpr (.inl less),
    wellFormed.alternates, IntervalTreeSet.containsPoint_iff wellFormed, ?_⟩
  intro _ _ _ _ start stop checked
  have less := checkRange_ok_iff.mp checked
  rw [rangePoints_eq]
  exact ⟨IntervalTreeSet.mem_points_of_coversInterval wellFormed less,
    IntervalTreeSet.coversInterval_of_points wellFormed less⟩

/-- An interval with a hole, and its ends. -/
def holed : List (Op ℚ) :=
  [.insertInterval (.included 1) (.excluded 5), .removePoint 3,
    .insertInterval (.excluded 7) .unbounded]

theorem holed_denotes : ∃ tree, holed.foldlM Op.apply {} = .ok tree ∧
    tree.points = holed.foldl Op.denote ∅ ∧
    tree.coversInterval (.excluded 3) (.excluded 5) = .ok true := by
  have valid : ∀ op ∈ holed, op.Valid := by
    simp only [holed, Op.Valid, checkRange_ok_iff]
    simp [lowerCut, upperCut]
  obtain ⟨tree, ran, denotes, -, -, -, covers⟩ := denotes_of_valid holed valid
  refine ⟨tree, ran, denotes, (covers inferInstance inferInstance inferInstance inferInstance _ _
    (checkRange_ok_iff.mpr (by norm_num [lowerCut, upperCut]))).mpr ?_⟩
  rw [denotes, rangePoints_eq]
  rintro point ⟨above, below⟩
  obtain ⟨above, below⟩ : 3 < point ∧ point < 5 := ⟨Cut.after_le_before.mp above, by
    simpa [Cut.IsBelow, upperCut] using below⟩
  refine .inl ⟨.inr ?_, above.ne'⟩
  have atLeast : 1 ≤ point := by linarith
  exact rangeContains_iff.mpr ⟨by simpa [Cut.IsBelow, lowerCut] using atLeast, by
    simpa [Cut.IsBelow, upperCut] using below⟩

end ReadySet.MergingIntervalTree
