import ReadySet.DataflowState.PartialMap

/-!
Owns the interval tree (`merging-interval-tree`): a set of points of a linear order,
stored as the ordered set of the endpoints of its intervals, and the iterators over
what a range shares with the tree and what the tree does not cover of it.

The B-tree of endpoints is the list of its elements in order. Owned and borrowed
endpoints are the same.
-/

namespace ReadySet.MergingIntervalTree

open Data Dataflow DataflowState

universe u

variable {T : Type u}

/-! ## Endpoints -/

inductive Endpoint (T : Type u) where
  | lowerUnbounded
  | lowerInclusive (value : T)
  | lowerExclusive (value : T)
  | upperUnbounded
  | upperInclusive (value : T)
  | upperExclusive (value : T)
deriving DecidableEq, Repr

namespace Endpoint

/-- `impl_ord`. -/
def cmp [Ord T] : Endpoint T → Endpoint T → Ordering
  | lowerUnbounded, lowerUnbounded => .eq
  | lowerUnbounded, _ => .lt
  | lowerInclusive _, lowerUnbounded => .gt
  | lowerInclusive s, lowerInclusive o => compare s o
  | lowerInclusive s, upperExclusive o => (compare s o).then .lt
  | lowerInclusive s, lowerExclusive o => (compare s o).then .lt
  | lowerInclusive s, upperInclusive o => (compare s o).then .lt
  | lowerInclusive _, upperUnbounded => .lt
  | upperExclusive _, lowerUnbounded => .gt
  | upperExclusive s, lowerInclusive o => (compare s o).then .gt
  | upperExclusive s, upperExclusive o => compare s o
  | upperExclusive s, lowerExclusive o => (compare s o).then .lt
  | upperExclusive s, upperInclusive o => (compare s o).then .lt
  | upperExclusive _, upperUnbounded => .lt
  | lowerExclusive _, lowerUnbounded => .gt
  | lowerExclusive s, lowerInclusive o => (compare s o).then .gt
  | lowerExclusive s, upperExclusive o => (compare s o).then .gt
  | lowerExclusive s, lowerExclusive o => compare s o
  | lowerExclusive s, upperInclusive o => (compare s o).then .lt
  | lowerExclusive _, upperUnbounded => .lt
  | upperInclusive _, lowerUnbounded => .gt
  | upperInclusive s, lowerInclusive o => (compare s o).then .gt
  | upperInclusive s, upperExclusive o => (compare s o).then .gt
  | upperInclusive s, lowerExclusive o => (compare s o).then .gt
  | upperInclusive s, upperInclusive o => compare s o
  | upperInclusive _, upperUnbounded => .lt
  | upperUnbounded, upperUnbounded => .eq
  | upperUnbounded, _ => .gt

def isLower : Endpoint T → Bool
  | lowerUnbounded | lowerInclusive _ | lowerExclusive _ => true
  | _ => false

def isUpper (endpoint : Endpoint T) : Bool := !endpoint.isLower

def lower : Bound T → Endpoint T
  | .included value => lowerInclusive value
  | .excluded value => lowerExclusive value
  | .unbounded => lowerUnbounded

def upper : Bound T → Endpoint T
  | .included value => upperInclusive value
  | .excluded value => upperExclusive value
  | .unbounded => upperUnbounded

def lowerComplement : Bound T → Endpoint T
  | .included value => lowerExclusive value
  | .excluded value => lowerInclusive value
  | .unbounded => lowerUnbounded

def upperComplement : Bound T → Endpoint T
  | .included value => upperExclusive value
  | .excluded value => upperInclusive value
  | .unbounded => upperUnbounded

def asBound : Endpoint T → Bound T
  | lowerUnbounded => .unbounded
  | upperExclusive value | lowerExclusive value => .excluded value
  | upperInclusive value | lowerInclusive value => .included value
  | upperUnbounded => .unbounded

def pair [Ord T] (start stop : Bound T) : ReadySetResult (Endpoint T × Endpoint T) :=
  match checkRange compare start stop with
  | .error error => .error error
  | .ok _ => .ok (lower start, upper stop)

end Endpoint

/-! ## The tree -/

structure IntervalTreeSet (T : Type u) where
  boundSet : List (Endpoint T) := []
deriving DecidableEq, Repr

namespace IntervalTreeSet

variable [Ord T]

/-- `BTreeSet::range` from an element on. -/
def rangeFrom (set : List (Endpoint T)) (start : Endpoint T) : List (Endpoint T) :=
  set.dropWhile fun endpoint => (endpoint.cmp start).isLT

/-- `BTreeSet::range` after an element. -/
def rangeAfter (set : List (Endpoint T)) (start : Endpoint T) : List (Endpoint T) :=
  set.dropWhile fun endpoint => (endpoint.cmp start).isLE

/-- `BTreeSet::insert`. -/
def insertEndpoint (endpoint : Endpoint T) : List (Endpoint T) → List (Endpoint T)
  | [] => [endpoint]
  | first :: rest =>
    match endpoint.cmp first with
    | .lt => endpoint :: first :: rest
    | .eq => first :: rest
    | .gt => first :: insertEndpoint endpoint rest

/-- `BTreeSet::remove`. -/
def removeEndpoint (set : List (Endpoint T)) (endpoint : Endpoint T) : List (Endpoint T) :=
  set.filter fun other => endpoint.cmp other ≠ .eq

variable (tree : IntervalTreeSet T)

def clear (_ : IntervalTreeSet T) : IntervalTreeSet T := {}

/-- The endpoints within a range, as `insert_interval` and `remove_interval` find them. -/
def removedNodes (lo hi : Endpoint T) : List (Endpoint T) :=
  (rangeFrom tree.boundSet lo).takeWhile fun lim => (hi.cmp lim).isGE

/-- Whether the last endpoint that was looked at is an upper one. -/
def nextIsUpper (lo hi : Endpoint T) : Bool :=
  let range := rangeFrom tree.boundSet lo
  match range.dropWhile fun lim => (hi.cmp lim).isGE with
  | lim :: _ => lim.isUpper
  | [] => (range.getLast?.map Endpoint.isUpper).getD false

/-- The first removed endpoint is an upper one, or without one the next is. -/
def startsInside (lo hi : Endpoint T) : Bool :=
  ((tree.removedNodes lo hi).head?.map Endpoint.isUpper).getD (tree.nextIsUpper lo hi)

/-- The last removed endpoint is a lower one, or without one the next is an upper one. -/
def endsInside (lo hi : Endpoint T) : Bool :=
  ((tree.removedNodes lo hi).getLast?.map Endpoint.isLower).getD (tree.nextIsUpper lo hi)

/-- The endpoints without those within a range. -/
def outside (lo hi : Endpoint T) : List (Endpoint T) :=
  (tree.removedNodes lo hi).foldl removeEndpoint tree.boundSet

def insertInterval (start stop : Bound T) : ReadySetResult (IntervalTreeSet T) :=
  match Endpoint.pair start stop with
  | .error error => .error error
  | .ok (lo, hi) =>
    let boundSet := tree.outside lo hi
    let boundSet := if tree.startsInside lo hi then boundSet
      else insertEndpoint (.lower lo.asBound) boundSet
    let boundSet := if tree.endsInside lo hi then boundSet
      else insertEndpoint (.upper hi.asBound) boundSet
    .ok ⟨boundSet⟩

def insertPoint (point : T) : ReadySetResult (IntervalTreeSet T) :=
  tree.insertInterval (.included point) (.included point)

def removeInterval (start stop : Bound T) : ReadySetResult (IntervalTreeSet T) :=
  match Endpoint.pair start stop with
  | .error error => .error error
  | .ok (lo, hi) =>
    let boundSet := tree.outside lo hi
    let boundSet := if tree.startsInside lo hi then
      insertEndpoint (.upperComplement lo.asBound) boundSet else boundSet
    let boundSet := if tree.endsInside lo hi then
      insertEndpoint (.lowerComplement hi.asBound) boundSet else boundSet
    .ok ⟨boundSet⟩

def removePoint (point : T) : ReadySetResult (IntervalTreeSet T) :=
  tree.removeInterval (.included point) (.included point)

def containsPoint (point : T) : Bool :=
  match (rangeAfter tree.boundSet (.lowerInclusive point)).head? with
  | some .upperUnbounded => true
  | some (.upperExclusive limit) => (compare limit point).isGT
  | some (.upperInclusive limit) => (compare limit point).isGE
  | _ => false

def coversInterval (start stop : Bound T) : ReadySetResult Bool :=
  match Endpoint.pair start stop with
  | .error error => .error error
  | .ok (lo, hi) =>
    .ok (match (rangeAfter tree.boundSet lo).head? with
      | some .upperUnbounded => true
      | some limit => limit.isUpper && (limit.cmp hi).isGE
      | none => false)

/-- `IntervalTreeSet::intervals`: the endpoints in pairs. -/
def intervals : List (Bound T × Bound T) := pairs tree.boundSet
where
  pairs : List (Endpoint T) → List (Bound T × Bound T)
    | lo :: next :: rest => (lo.asBound, next.asBound) :: pairs rest
    | _ => []

end IntervalTreeSet

/-! ## Differences -/

structure IntervalDiffIter (T : Type u) where
  lowerBound : Option (Bound T)
  upperBound : Option (Bound T)
  inner : List (Endpoint T)

namespace IntervalDiffIter

variable [Ord T]

/-- `IntervalDiffIter::max_bound`, with the upper bound that is left. -/
def maxBound (upperBound : Option (Bound T)) (other : Bound T) :
    Option (Bound T) × Option (Bound T) :=
  match upperBound with
  | none => (none, none)
  | some .unbounded =>
    match other with
    | .unbounded => (none, upperBound)
    | .included oth => (some (.excluded oth), upperBound)
    | .excluded oth => (some (.included oth), upperBound)
  | some (.included cur) =>
    match other with
    | .included oth =>
      match compare oth cur with
      | .lt => (some (.excluded oth), upperBound)
      | .eq => (some (.excluded cur), none)
      | .gt => (upperBound, none)
    | .excluded oth =>
      match compare oth cur with
      | .lt => (some (.included oth), upperBound)
      | .eq => (some (.included cur), upperBound)
      | .gt => (upperBound, none)
    | .unbounded => (upperBound, none)
  | some (.excluded cur) =>
    match other with
    | .included oth =>
      if (compare oth cur).isLT then (some (.excluded oth), upperBound) else (upperBound, none)
    | .excluded oth =>
      if (compare oth cur).isLT then (some (.included oth), upperBound) else (upperBound, none)
    | .unbounded => (upperBound, none)

/-- `IntervalDiffIter::next`; `none` when the first bound is expected and gone. -/
def next (iter : IntervalDiffIter T) :
    Option (Option (Bound T × Bound T) × IntervalDiffIter T) :=
  match iter.inner with
  | lim :: inner =>
    if lim.isLower then
      match iter.lowerBound with
      | none => none
      | some lo =>
        let (hi, upperBound) := maxBound iter.upperBound lim.asBound
        some (hi.map fun hi => (lo, hi), ⟨none, upperBound, inner⟩)
    else
      match maxBound iter.upperBound lim.asBound with
      | (none, upperBound) => some (none, ⟨iter.lowerBound, upperBound, inner⟩)
      | (some lo, upperBound) =>
        match inner with
        | lim :: inner =>
          let (hi, upperBound) := maxBound upperBound lim.asBound
          some (hi.map fun hi => (lo, hi), ⟨iter.lowerBound, upperBound, inner⟩)
        | [] => some (upperBound.map fun hi => (lo, hi), ⟨iter.lowerBound, none, []⟩)
  | [] =>
    match iter.lowerBound, iter.upperBound with
    | some lo, some hi => some (some (lo, hi), ⟨none, none, []⟩)
    | _, _ => some (none, ⟨none, none, []⟩)

/-- What the iterator yields; `none` when it panics, or yields more than the fuel. -/
def collect : Nat → IntervalDiffIter T → Option (List (Bound T × Bound T))
  | 0, _ => none
  | fuel + 1, iter =>
    match iter.next with
    | none => none
    | some (none, _) => some []
    | some (some item, iter) => (collect fuel iter).map (item :: ·)

end IntervalDiffIter

/-! ## Overlaps -/

structure IntervalOverlapIter (T : Type u) where
  lowerBound : Option (Bound T)
  upperBound : Option (Bound T)
  inner : List (Endpoint T)

namespace IntervalOverlapIter

variable [Ord T]

/-- `IntervalOverlapIter::max_bound`, with the upper bound that is left. -/
def maxBound (upperBound : Option (Bound T)) (other : Bound T) :
    Option (Bound T) × Option (Bound T) :=
  match upperBound with
  | none => (none, none)
  | some .unbounded =>
    match other with
    | .unbounded => (some other, upperBound)
    | _ => (none, upperBound)
  | some (.included cur) =>
    match other with
    | .included oth =>
      if (compare oth cur).isLE then (some other, upperBound) else (upperBound, none)
    | .excluded oth =>
      if (compare oth cur).isLT then (some other, upperBound) else (upperBound, none)
    | .unbounded => (upperBound, none)
  | some (.excluded cur) =>
    match other with
    | .included oth =>
      if (compare oth cur).isLT then (some other, upperBound) else (upperBound, none)
    | .excluded oth =>
      if (compare oth cur).isLT then (some other, upperBound) else (upperBound, none)
    | .unbounded => (upperBound, none)

/-- `IntervalOverlapIter::next`; `none` when the first bound is expected and gone. -/
def next (iter : IntervalOverlapIter T) :
    Option (Option (Bound T × Bound T) × IntervalOverlapIter T) :=
  match iter.inner with
  | lim :: inner =>
    if lim.isUpper then
      match iter.lowerBound with
      | none => none
      | some lo =>
        let (hi, upperBound) := maxBound iter.upperBound lim.asBound
        some (hi.map fun hi => (lo, hi), ⟨none, upperBound, inner⟩)
    else
      match maxBound iter.upperBound lim.asBound with
      | (none, upperBound) => some (none, ⟨iter.lowerBound, upperBound, inner⟩)
      | (some lo, upperBound) =>
        match inner with
        | lim :: inner =>
          let (hi, upperBound) := maxBound upperBound lim.asBound
          some (hi.map fun hi => (lo, hi), ⟨iter.lowerBound, upperBound, inner⟩)
        | [] => some (upperBound.map fun hi => (lo, hi), ⟨iter.lowerBound, none, []⟩)
  | [] => some (none, iter)

/-- What the iterator yields; `none` when it panics, or yields more than the fuel. -/
def collect : Nat → IntervalOverlapIter T → Option (List (Bound T × Bound T))
  | 0, _ => none
  | fuel + 1, iter =>
    match iter.next with
    | none => none
    | some (none, _) => some []
    | some (some item, iter) => (collect fuel iter).map (item :: ·)

end IntervalOverlapIter

namespace IntervalTreeSet

variable [Ord T] (tree : IntervalTreeSet T)

/-- `IntervalTreeSet::get_interval_difference`, for a range that was checked. -/
def diffIter (start stop : Bound T) : IntervalDiffIter T where
  lowerBound := some start
  upperBound := some stop
  inner :=
    match start with
    | .included value => rangeFrom tree.boundSet (.upperExclusive value)
    | .excluded value => rangeAfter tree.boundSet (.upperInclusive value)
    | .unbounded => rangeAfter tree.boundSet .lowerUnbounded

/-- `IntervalTreeSet::get_interval_overlaps`, for a range that was checked. -/
def overlapIter (start stop : Bound T) : IntervalOverlapIter T where
  lowerBound := some start
  upperBound := some stop
  inner :=
    match start with
    | .included value => rangeAfter tree.boundSet (.upperExclusive value)
    | .excluded value => rangeAfter tree.boundSet (.upperInclusive value)
    | .unbounded => rangeAfter tree.boundSet .lowerUnbounded

/-- The iterators end after one item for each endpoint. -/
def fuel : Nat := tree.boundSet.length + 2

/-- `IntervalTreeSet::get_interval_difference`, collected. -/
def getIntervalDifference (start stop : Bound T) : ReadySetResult (List (Bound T × Bound T)) :=
  match checkRange compare start stop with
  | .error error => .error error
  | .ok _ =>
    match (tree.diffIter start stop).collect tree.fuel with
    | some items => .ok items
    | none => .error (.panicked "First iteration")

/-- `IntervalTreeSet::get_interval_overlaps`, collected. -/
def getIntervalOverlaps (start stop : Bound T) : ReadySetResult (List (Bound T × Bound T)) :=
  match checkRange compare start stop with
  | .error error => .error error
  | .ok _ =>
    match (tree.overlapIter start stop).collect tree.fuel with
    | some items => .ok items
    | none => .error (.panicked "First iteration")

end IntervalTreeSet

end ReadySet.MergingIntervalTree
