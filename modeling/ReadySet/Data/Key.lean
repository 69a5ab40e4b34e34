import ReadySet.Data.Value

/-!
Owns lookup and replay keys: point keys, key comparisons (`KeyComparison`) and
the bounds of range keys, with the comparisons the source uses on them.
-/

namespace ReadySet.Data

universe u

variable {V : Type u}

/-- A point key: the values of the key columns, in column order. -/
abbrev Key (V : Type u) := List (DfValue V)

inductive Bound (α : Type u) where
  | included (endpoint : α)
  | excluded (endpoint : α)
  | unbounded
deriving DecidableEq, Repr

/-- `KeyComparison`: one key, or every key between two bounds. -/
inductive KeyComparison (V : Type u) where
  | equal (key : Key V)
  | range (lower upper : Bound (Key V))
deriving DecidableEq, Repr

namespace KeyComparison

/-- `KeyComparison::equal`: the key of a point, also when it is written as a range. -/
def equalKey [DecidableEq V] : KeyComparison V → Option (Key V)
  | equal key => some key
  | range (.included key) (.included key2) => if key = key2 then some key else none
  | _ => none

def fromRange [DecidableEq V] : Bound (Key V) × Bound (Key V) → KeyComparison V
  | (.included key1, .included key2) =>
    if key1 = key2 then equal key1 else range (.included key1) (.included key2)
  | (start, stop) => range start stop

def startBound : KeyComparison V → Bound (Key V)
  | equal key => .included key
  | range lower _ => lower

def endBound : KeyComparison V → Bound (Key V)
  | equal key => .included key
  | range _ upper => upper

end KeyComparison

section

variable [LinearOrder V] {left right : KeyComparison V}

/-- `Iterator::cmp` and `Vec::cmp` on keys: lexicographic. -/
def Key.cmp : Key V → Key V → Ordering := List.compareLex DfValue.cmp

theorem DfValue.cmp_eq : (DfValue.cmp : DfValue V → DfValue V → Ordering) = compare := by
  funext left right
  exact DfValue.cmp_eq_compare left right

instance : Std.TransCmp (DfValue.cmp (V := V)) := by
  rw [DfValue.cmp_eq]
  infer_instance

instance : Std.LawfulEqCmp (DfValue.cmp (V := V)) := by
  rw [DfValue.cmp_eq]
  infer_instance

instance : Std.TransCmp (Key.cmp (V := V)) :=
  inferInstanceAs (Std.TransCmp (List.compareLex DfValue.cmp))

instance : Std.LawfulEqCmp (Key.cmp (V := V)) :=
  inferInstanceAs (Std.LawfulEqCmp (List.compareLex DfValue.cmp))

theorem Key.cmp_eq_iff {left right : Key V} : Key.cmp left right = .eq ↔ left = right :=
  Std.LawfulEqCmp.compare_eq_iff_eq

theorem Key.cmp_singleton (left right : DfValue V) :
    Key.cmp [left] [right] = compare left right := by
  rw [← DfValue.cmp_eq_compare]
  simp only [Key.cmp, List.compareLex]
  cases DfValue.cmp left right <;> rfl

/-- Whether a key lies above a lower bound. -/
def Bound.belowKey (lower : Bound (Key V)) (key : Key V) : Bool :=
  match lower with
  | .included start => (Key.cmp key start).isGE
  | .excluded start => (Key.cmp key start).isGT
  | .unbounded => true

/-- Whether a key lies below an upper bound. -/
def Bound.aboveKey (upper : Bound (Key V)) (key : Key V) : Bool :=
  match upper with
  | .included stop => (Key.cmp key stop).isLE
  | .excluded stop => (Key.cmp key stop).isLT
  | .unbounded => true

def KeyComparison.contains (comparison : KeyComparison V) (key : Key V) : Bool :=
  match comparison with
  | .equal point => Key.cmp key point == .eq
  | .range lower upper => lower.belowKey key && upper.aboveKey key

@[simp] theorem KeyComparison.contains_equal {point key : Key V} :
    (KeyComparison.equal point).contains key = true ↔ key = point := by
  simp [KeyComparison.contains]

/-- `KeyComparison::eq`: a range from a key to itself is that key. -/
def KeyComparison.eq : KeyComparison V → KeyComparison V → Bool
  | .equal left, .equal right => left = right
  | .range lower upper, .range lower' upper' => lower = lower' && upper = upper'
  | .equal key, .range (.included start) (.included stop) => key = start && start = stop
  | .range (.included start) (.included stop), .equal key => key = start && start = stop
  | .equal _, .range _ _ => false
  | .range _ _, .equal _ => false

theorem KeyComparison.eq_iff : left.eq right = true ↔
    left.startBound = right.startBound ∧ left.endBound = right.endBound := by
  rcases left with left | ⟨_ | _ | _, _ | _ | _⟩ <;>
    rcases right with right | ⟨_ | _ | _, _ | _ | _⟩ <;>
    simp [KeyComparison.eq, startBound, endBound] <;> grind

theorem KeyComparison.eq_refl (key : KeyComparison V) : key.eq key = true := eq_iff.mpr ⟨rfl, rfl⟩

theorem KeyComparison.eq_symm (same : left.eq right = true) : right.eq left = true :=
  eq_iff.mpr ((eq_iff.mp same).imp Eq.symm Eq.symm)

theorem KeyComparison.eq_trans {middle : KeyComparison V}
    (first : left.eq middle = true) (second : middle.eq right = true) : left.eq right = true := by
  rw [eq_iff] at *
  exact ⟨first.1.trans second.1, first.2.trans second.2⟩

/-! ## Comparing bounds -/

/-- `Ord` on the endpoint and rank that `cmp_startbound` and `cmp_endbound`
give a bound; `None` sorts by `least`. -/
def cmpRanked (least : Ordering) : Option (Key V × Nat) → Option (Key V × Nat) → Ordering
  | none, none => .eq
  | none, some _ => least
  | some _, none => least.swap
  | some left, some right => (Key.cmp left.1 right.1).then (compare left.2 right.2)

def cmpStartbound (left right : Bound (Key V)) : Ordering :=
  cmpRanked .lt (rank left) (rank right)
where
  rank : Bound (Key V) → Option (Key V × Nat)
    | .included endpoint => some (endpoint, 1)
    | .excluded endpoint => some (endpoint, 2)
    | .unbounded => none

def cmpEndbound (left right : Bound (Key V)) : Ordering :=
  cmpRanked .gt (rank left) (rank right)
where
  rank : Bound (Key V) → Option (Key V × Nat)
    | .included endpoint => some (endpoint, 2)
    | .excluded endpoint => some (endpoint, 1)
    | .unbounded => none

/-- `BTreeMap::range` accepts the key as a range: its start is not above its
end, nor are both the same excluded endpoint. -/
def KeyComparison.isValidRange : KeyComparison V → Bool
  | .equal _ => true
  | .range (.excluded start) (.excluded stop) => (Key.cmp start stop).isLT
  | .range (.included start) (.included stop) => (Key.cmp start stop).isLE
  | .range (.included start) (.excluded stop) => (Key.cmp start stop).isLE
  | .range (.excluded start) (.included stop) => (Key.cmp start stop).isLE
  | .range .unbounded _ => true
  | .range _ .unbounded => true

end

end ReadySet.Data
