import ReadySet.Data.Order
import ReadySet.DataflowState.Persistent.Runs

/-!
Owns range lookups in the B-tree indices of a base table
(`PersistentStateHandle::lookup_range`): the comparator of their column
families, the scan between two bounds, and when it returns exactly the stored
rows of the range.

A B-tree index is never the primary one, so that its entries hold primary keys.
A column family with a comparator keeps its entries in the comparator's order;
the model orders them when they are read. Rows are read by their primary keys in
batches, which makes no difference to what is read.
-/

namespace ReadySet.DataflowState.Persistent

open Data Library Dataflow DataflowState Key List

variable {X : Type} {start : Key (Datum X)}

open ValueFormat (ofExternals)

open Ordering (byKey isLT_iff_eq_lt)

open Std.OrientedCmp (eq_swap)

open Std.TransCmp (congr_left congr_right lt_trans)

/-! ## The comparator -/

section

variable (env : Externals X) (columns : Nat)

/-- The values of a key: as many as there are columns, or, above six, as the
written key says. -/
def readValues (bytes : Bytes) : Option (Key (Datum X) × Bytes) :=
  if columns ≤ 6 then (valueCodec env).readMany columns bytes
  else (valueCodec env).sequence.decode bytes

/-- `deserialize_key`: the size of a key, and the key. -/
def deserializeKey (bytes : Bytes) : Option (Nat × Key (Datum X)) :=
  (readVarint bytes).bind fun (size, rest) =>
    (readValues env columns rest).map fun (key, _) => (size, key)

/-- `make_compare_keys!`: by the keys, then by the bytes from the size of the key
on. The source panics on a key it cannot read. -/
def compareKeys (left right : Bytes) : Ordering :=
  match deserializeKey env columns left, deserializeKey env columns right with
  | some (leftSize, leftKey), some (rightSize, rightKey) =>
    (Key.compareIn env leftKey rightKey).then
      (Bytes.cmp (left.drop leftSize) (right.drop rightSize))
  | _, _ => .eq

end

/-! ## The scan -/

/-- `Bound::map`. -/
def boundMap {α β : Type} (f : α → β) : Bound α → Bound β
  | .included point => .included (f point)
  | .excluded point => .excluded (f point)
  | .unbounded => .unbounded

def endpoint? {α : Type} : Bound α → Option α
  | .included point => some point
  | .excluded point => some point
  | .unbounded => none

section

variable (cmp : Bytes → Bytes → Ordering) (entries : List (Bytes × Bytes))

/-- The entries of an iterator with `iterate_upper_bound`, which is exclusive. -/
def boundedAbove (upper : Bound Bytes) : List (Bytes × Bytes) :=
  match endpoint? upper with
  | some stop => entries.takeWhile fun entry => (cmp entry.1 stop).isLT
  | none => entries

/-- Where the iterator starts. The loop that skips an excluded start looks at the
values of the entries, which are primary keys. -/
def startedAt (lower : Bound Bytes) : List (Bytes × Bytes) :=
  match lower with
  | .included start => entries.dropWhile fun entry => (cmp entry.1 start).isLT
  | .excluded start =>
    (entries.dropWhile fun entry => (cmp entry.1 start).isLT).dropWhile fun entry =>
      prefixTransform entry.2 = start
  | .unbounded => entries

/-- The second pass, for an included end. -/
def inclusiveEnd (upper : Bound Bytes) : List (Bytes × Bytes) :=
  match upper with
  | .included stop =>
    (entries.dropWhile fun entry => (cmp entry.1 stop).isLT).takeWhile fun entry =>
      prefixTransform entry.1 = stop
  | _ => []

def scanRange (lower upper : Bound Bytes) : List (Bytes × Bytes) :=
  startedAt cmp (boundedAbove cmp entries upper) lower ++ inclusiveEnd cmp entries upper

end

inductive RangeLookupResult (V : Type) where
  | some (rows : List (Row V))
  | missing (ranges : List (Bound (Key V) × Bound (Key V)))

section

variable (env : Externals X)

/-- The entries of a B-tree index in the order of its comparator. -/
def PersistentIndex.ordered (index : PersistentIndex) (db : Database (Datum X)) :
    List (Bytes × Bytes) :=
  SortedMap.resort (compareKeys env index.index.columns.length)
    (db.families index.columnFamily).entries

/-- The rows `lookup_range` reads from an index. -/
def PersistentIndex.lookupRangeRows (index : PersistentIndex) (db : Database (Datum X))
    (lower upper : Bound (Key (Datum X))) : ReadySetResult (List (Row (Datum X))) :=
  let columns := index.index.columns.length
  let start := boundMap (serializePrefix (.ofExternals env)) lower
  let stop := boundMap (serializePrefix (.ofExternals env)) upper
  let compared := (db.families index.columnFamily).entries.map Prod.fst ++
    (endpoint? start).toList ++ (endpoint? stop).toList
  if compared.all fun key => (deserializeKey env columns key).isSome then
    (scanRange (compareKeys env columns) (index.ordered env db) start stop).mapM
      fun entry => db.getRow entry.2
  else .error (.panicked "deserialize_key")

def PersistentStateHandle.lookupRange (handle : PersistentStateHandle (Datum X))
    (columns : List Nat) (lower upper : Bound (Key (Datum X))) :
    ReadySetResult (RangeLookupResult (Datum X)) :=
  if isBehind handle.replicationOffset handle.inner.replicationOffset then
    .ok (.missing [(lower, upper)])
  else
    match handle.inner.index .bTreeMap columns with
    | .error error => .error error
    | .ok index => (index.lookupRangeRows env handle.inner.db lower upper).map .some

def PersistentState.lookupRange (state : PersistentState (Datum X)) (columns : List Nat)
    (lower upper : Bound (Key (Datum X))) : ReadySetResult (RangeLookupResult (Datum X)) :=
  state.db.lookupRange env columns lower upper

end

/-! ## Keys that the comparator orders -/

/-- The keys at hand are of the kinds of their columns, and are read back as they
are: a text stands alone. -/
structure ReadBack (kinds : List Kind) (keys : Key (Datum X) → Prop) : Prop where
  bounded : ∀ key, keys key → Key.Bounded kinds key
  several : kinds.length ≠ 1 → Kind.text ∉ kinds

/-- The keys at hand are read back, are ordered as their values are, and are
written alike when they are equal. -/
structure Comparable (env : Externals X) (kinds : List Kind)
    (keys : Key (Datum X) → Prop) : Prop extends ReadBack kinds keys where
  agree : ∀ left right, keys left → keys right →
    Key.compareIn env (left.transform env) (right.transform env) =
      Key.compareIn env left right
  alike : ∀ left right, keys left → keys right → Key.compareIn env left right = .eq →
    Key.serialize env left = Key.serialize env right

section

variable {env : Externals X} {kinds : List Kind} {keys : Key (Datum X) → Prop}

theorem serializeElement_of_bounded {kind : Kind} (notText : kind ≠ .text)
    {cell : DfValue (Datum X)} (bounded : cell.Bounded kind) :
    cell.serializeElement env = (cell.transformForSerializedKey env).serialize env := by
  rcases bounded with typed | rfl
  · rw [serializeElement_of_kind notText typed, transform_of_kind notText typed]
  · rfl

variable {key : Key (Datum X)}

theorem flatMap_serializeElement (bounded : Key.Bounded kinds key) (noText : Kind.text ∉ kinds) :
    key.flatMap (DfValue.serializeElement env) =
      (key.transform env).flatMap (valueCodec env).encode := by
  induction bounded with
  | nil => rfl
  | cons head _ ih =>
    rw [mem_cons, not_or] at noText
    obtain ⟨notText, rest⟩ := noText
    rw [flatMap_cons, serializeElement_of_bounded (Ne.symm notText) head, ih rest]
    rfl

section

variable (readBack : ReadBack kinds keys) (isKey : keys key) (extra : Bytes)

include readBack isKey

variable (env) in
/-- The comparator reads the values of a key back, normalised. -/
theorem ReadBack.readValues_eq :
    readValues env kinds.length (serialize env key ++ extra) = some (key.transform env, extra) := by
  have bounded := readBack.bounded key isKey
  have length : (key.transform env).length = kinds.length := by
    rw [transform, length_map, bounded.length_eq]
  by_cases one : kinds.length = 1
  · obtain ⟨cell, rfl⟩ := length_eq_one_iff.mp (bounded.length_eq.symm.trans one)
    rw [one]
    have read := (valueCodec env).readMany_encode [cell.transformForSerializedKey env] extra
    rw [flatMap_singleton] at read
    exact read
  · have written : serialize env key = (if kinds.length ≤ 6 then [] else
        writeVarint kinds.length) ++ (key.transform env).flatMap (valueCodec env).encode := by
      rw [← flatMap_serializeElement bounded (readBack.several one), bounded.length_eq]
      match key, bounded with
      | [], _ => rfl
      | [_], bounded => exact absurd bounded.length_eq one
      | _ :: _ :: _, _ => rfl
    rw [written, readValues]
    split_ifs with short
    · rw [← length]
      exact (valueCodec env).readMany_encode _ extra
    · rw [← length]
      exact (valueCodec env).sequence.decode_encode _ extra

theorem ReadBack.deserializeKey_eq :
    deserializeKey env kinds.length (serializeKey (.ofExternals env) key extra) =
      some ((serialize env key).length, key.transform env) := by
  rw [deserializeKey, serializeKey, append_assoc, readVarint_writeVarint, Option.bind_some]
  have read := readBack.readValues_eq env isKey extra
  simp only [ofExternals]
  rw [read]
  rfl

end

/-- Keys by their values, then by what tells their entries apart. -/
def pairCmp (env : Externals X) (kinds : List Kind) :
    Key (Datum X) × Bytes → Key (Datum X) × Bytes → Ordering :=
  compareLex (Ordering.byKey (fun pair => pair.1.transform env) (Key.cmpWithin env kinds))
    (Ordering.byKey Prod.snd Bytes.cmp)

def keyOrder (env : Externals X) (kinds : List Kind) :
    Key (Datum X) → Key (Datum X) → Ordering :=
  Ordering.byKey (Key.transform env) (Key.cmpWithin env kinds)

theorem transCmp_keyOrder (ordered : env.Ordered) (kinds : List Kind) :
    Std.TransCmp (keyOrder env kinds) := by
  have := ordered.transCmp_key kinds
  unfold keyOrder
  infer_instance

variable {left right : Key (Datum X)}

theorem drop_serializeKey (key : Key (Datum X)) (extra : Bytes) :
    (serializeKey (.ofExternals env) key extra).drop (serialize env key).length =
      (serializePrefix (.ofExternals env) key).drop (serialize env key).length ++
        extra := by
  have within_ : (serialize env key).length ≤ (serializePrefix (.ofExternals env) key).length := by
    simp [serializePrefix, serializeKey, ofExternals]
  rw [← drop_append_of_le_length within_]
  simp [serializePrefix, serializeKey]

/-- The bytes under which an index may hold a row of the keys at hand, or look for
one. -/
def Holds (env : Externals X) (keys : Key (Datum X) → Prop) (bytes : Bytes) : Prop :=
  ∃ key extra, keys key ∧ bytes = serializeKey (.ofExternals env) key extra

section

variable (comparable : Comparable env kinds keys)

include comparable

theorem Comparable.compareIn_eq (isLeft : keys left) (isRight : keys right) :
    compareIn env left right = keyOrder env kinds left right := by
  rw [← comparable.agree left right isLeft isRight]
  exact compareIn_transform (comparable.bounded left isLeft) (comparable.bounded right isRight)

/-- The comparator on the bytes of comparable keys. -/
theorem Comparable.compareKeys_eq (isLeft : keys left) (isRight : keys right)
    (leftExtra rightExtra : Bytes) :
    compareKeys env kinds.length (serializeKey (.ofExternals env) left leftExtra)
        (serializeKey (.ofExternals env) right rightExtra) =
      pairCmp env kinds (left, leftExtra) (right, rightExtra) := by
  rw [compareKeys, comparable.toReadBack.deserializeKey_eq isLeft,
    comparable.toReadBack.deserializeKey_eq isRight]
  have keyed : compareIn env _ _ = _ := compareIn_transform
    (comparable.bounded left isLeft) (comparable.bounded right isRight)
  simp only [pairCmp, compareLex, byKey]
  rw [keyed, drop_serializeKey, drop_serializeKey]
  cases order : cmpWithin env kinds (left.transform env) (right.transform env) with
  | lt => rfl
  | gt => rfl
  | eq =>
    have same : serialize env left = serialize env right :=
      comparable.alike left right isLeft isRight
        ((comparable.compareIn_eq isLeft isRight).trans order)
    have start : serializePrefix (.ofExternals env) left =
        serializePrefix (.ofExternals env) right := by
      simp [serializePrefix, serializeKey, ofExternals, same]
    rw [start, same]
    exact compareLex_append _ leftExtra rightExtra

theorem Comparable.serialize_iff (ordered : env.Ordered) (isLeft : keys left)
    (isRight : keys right) :
    serialize env left = serialize env right ↔ compareIn env left right = .eq := by
  constructor
  · intro same
    have read := comparable.toReadBack.readValues_eq env isLeft []
    rw [same, comparable.toReadBack.readValues_eq env isRight []] at read
    have transformed := (Prod.mk.inj (Option.some.inj read)).1
    have := ordered.transCmp_key kinds
    rw [comparable.compareIn_eq isLeft isRight, keyOrder, byKey, transformed]
    exact Std.ReflCmp.compare_self
  · exact comparable.alike left right isLeft isRight

/-- On comparable keys the comparator is a total order. -/
theorem Comparable.orderedOn (ordered : env.Ordered) :
    OrderedOn (compareKeys env kinds.length) (Holds env keys) := by
  have := ordered.transCmp_key kinds
  have lawful : Std.TransCmp (pairCmp env kinds) :=
    inferInstanceAs (Std.TransCmp (compareLex
      (byKey (fun pair : Key (Datum X) × Bytes => pair.1.transform env)
        (cmpWithin env kinds))
      (byKey Prod.snd Bytes.cmp)))
  constructor
  · rintro _ ⟨key, extra, isKey, rfl⟩
    rw [comparable.compareKeys_eq isKey isKey]
    exact Std.ReflCmp.compare_self
  · rintro _ _ ⟨left, leftExtra, isLeft, rfl⟩ ⟨right, rightExtra, isRight, rfl⟩
    rw [comparable.compareKeys_eq isLeft isRight, comparable.compareKeys_eq isRight isLeft]
    exact eq_swap
  · rintro _ _ _ ⟨left, leftExtra, isLeft, rfl⟩ ⟨middle, middleExtra, isMiddle, rfl⟩
      ⟨right, rightExtra, isRight, rfl⟩
    rw [comparable.compareKeys_eq isLeft isMiddle, comparable.compareKeys_eq isMiddle isRight,
      comparable.compareKeys_eq isLeft isRight]
    exact lt_trans
  · rintro _ _ ⟨left, leftExtra, isLeft, rfl⟩ ⟨right, rightExtra, isRight, rfl⟩ same
    rw [comparable.compareKeys_eq isLeft isRight, pairCmp, compareLex_eq_eq] at same
    obtain ⟨keyed, extras⟩ := same
    have written : serialize env left = serialize env right :=
      comparable.alike left right isLeft isRight
        ((comparable.compareIn_eq isLeft isRight).trans keyed)
    have rest : leftExtra = rightExtra := Std.LawfulEqCmp.eq_of_compare extras
    simp [serializeKey, ofExternals, written, rest]

theorem Comparable.isLT_iff (isKey : keys key) (isStart : keys start)
    (extra : Bytes) :
    (compareKeys env kinds.length (serializeKey (.ofExternals env) key extra)
        (serializePrefix (.ofExternals env) start)).isLT =
      (keyOrder env kinds key start).isLT := by
  rw [serializePrefix, comparable.compareKeys_eq isKey isStart]
  simp only [pairCmp, compareLex, keyOrder, byKey]
  cases order : cmpWithin env kinds (key.transform env) (start.transform env) with
  | lt => rfl
  | gt => rfl
  | eq =>
    have above : (Bytes.cmp extra []).isLT = false := isLT_eq_false_of_starts nil_prefix
    exact above

end

end

/-! ## The scan of a consistent index -/

/-- Whether a key is above a lower bound. -/
def startsBelow {κ : Type} (cmp : κ → κ → Ordering) (lower : Bound κ) (key : κ) : Bool :=
  match lower with
  | .included start => !(cmp key start).isLT
  | .excluded start => (cmp key start).isGT
  | .unbounded => true

/-- Whether a key is below an upper bound. -/
def endsAbove {κ : Type} (cmp : κ → κ → Ordering) (upper : Bound κ) (key : κ) : Bool :=
  match upper with
  | .included stop => !(cmp key stop).isGT
  | .excluded stop => (cmp key stop).isLT
  | .unbounded => true

/-- Whether a key is below the endpoint of an upper bound. -/
def endsBeyond {κ : Type} (cmp : κ → κ → Ordering) (upper : Bound κ) (key : κ) : Bool :=
  match endpoint? upper with
  | some stop => (cmp key stop).isLT
  | none => true

/-- Whether a key is at an included end. -/
def endsAt {κ : Type} (cmp : κ → κ → Ordering) (upper : Bound κ) (key : κ) : Bool :=
  match upper with
  | .included stop => cmp key stop == .eq
  | _ => false

/-- The start of a range is not above its end, and two excluded ends differ. -/
def ValidRange {κ : Type} (cmp : κ → κ → Ordering) : Bound κ → Bound κ → Prop
  | .excluded start, .excluded stop => cmp start stop = .lt
  | lower, upper => ∀ start ∈ endpoint? lower, ∀ stop ∈ endpoint? upper, cmp start stop ≠ .gt

section

variable {κ : Type} {cmp other : κ → κ → Ordering} {lower upper : Bound κ} {key : κ}

theorem startsBelow_eq (agree : ∀ start ∈ endpoint? lower, cmp key start = other key start) :
    startsBelow cmp lower key = startsBelow other lower key := by
  cases lower <;> simp_all [startsBelow, endpoint?]

section

variable (agree : ∀ stop ∈ endpoint? upper, cmp key stop = other key stop)

include agree

theorem endsAbove_eq : endsAbove cmp upper key = endsAbove other upper key := by
  cases upper <;> simp_all [endsAbove, endpoint?]

theorem endsBeyond_eq : endsBeyond cmp upper key = endsBeyond other upper key := by
  cases upper <;> simp_all [endsBeyond, endpoint?]

end

theorem ValidRange.congr (valid : ValidRange cmp lower upper)
    (agree : ∀ start ∈ endpoint? lower, ∀ stop ∈ endpoint? upper,
      cmp start stop = other start stop) : ValidRange other lower upper := by
  cases lower <;> cases upper <;> simp_all [ValidRange, endpoint?]

end

section

variable {α κ : Type} {cmp : κ → κ → Ordering} [Std.TransCmp cmp] {rank : α → κ} {entries : List α}
  {lower upper : Bound κ} {start : κ} {stop : κ}

theorem startsBelow_congr {left right : κ} (same : cmp left right = .eq) :
    startsBelow cmp lower left = startsBelow cmp lower right := by
  cases lower with
  | unbounded => rfl
  | included _ => simp only [startsBelow, congr_left same]
  | excluded _ => simp [startsBelow, congr_left same]

/-- The entries below the end of a range and those at an included end are the
entries of the range. -/
theorem scan_perm (reaches : ∀ stop, upper = .included stop → startsBelow cmp lower stop = true) :
    ((entries.filter fun entry =>
          startsBelow cmp lower (rank entry) && endsBeyond cmp upper (rank entry)) ++
        entries.filter fun entry => endsAt cmp upper (rank entry)).Perm
      (entries.filter fun entry =>
        startsBelow cmp lower (rank entry) && endsAbove cmp upper (rank entry)) := by
  apply filter_append_filter_perm
  · intro entry _ below
    cases upper with
    | unbounded => rfl
    | excluded _ => rfl
    | included stop =>
      simp only [endsBeyond, endpoint?, Bool.and_eq_true, isLT_iff_eq_lt] at below
      simp [endsAt, below.2]
  · intro entry _
    cases upper with
    | unbounded | excluded stop => simp [endsBeyond, endsAbove, endsAt, endpoint?]
    | included stop =>
      simp only [endsBeyond, endsAbove, endsAt, endpoint?]
      cases order : cmp (rank entry) stop with
      | lt | gt => simp
      | eq => simp [startsBelow_congr order, reaches stop rfl]

theorem startsBelow_of_valid (notExcluded : ∀ start, lower ≠ .excluded start)
    (valid : ValidRange cmp lower upper) (closed : upper = .included stop) :
    startsBelow cmp lower stop = true := by
  subst closed
  cases lower with
  | unbounded => rfl
  | excluded start => exact absurd rfl (notExcluded start)
  | included start =>
    have swapped : cmp start stop = (cmp stop start).swap := eq_swap
    have notAbove := valid start rfl stop rfl
    cases order : cmp stop start with
    | lt => exact absurd (swapped.trans (by rw [order]; rfl)) notAbove
    | eq | gt => simp [startsBelow, order]

variable (cmp rank entries upper start) in
/-- The entries from the start of a range to before its end. -/
def scanned : List α :=
  entries.filter fun entry => !(cmp (rank entry) start).isLT && endsBeyond cmp upper (rank entry)

variable (cmp rank entries upper start) in
/-- What a scan shows that skips an excluded start by a test of its own is what
is in the range. -/
def ScanExact {β : Type} (shown : α → β) (skips : α → Bool) : Prop :=
  ((((scanned cmp rank entries upper start).dropWhile skips ++
      entries.filter fun entry => endsAt cmp upper (rank entry)).map shown : List β) : Multiset β) =
    ((entries.filter fun entry => startsBelow cmp (.excluded start) (rank entry) &&
      endsAbove cmp upper (rank entry)).map shown : List β)

variable {β : Type} {shown : α → β} {skips : α → Bool}

theorem scanExact_iff_degenerate (same : cmp start stop = .eq) :
    ScanExact cmp rank entries (.included stop) start shown skips ↔
      ∀ entry ∈ entries, cmp (rank entry) start ≠ .eq := by
  have none : ∀ order : Ordering, (!order.isLT && order.isLT) = false := by decide
  have noneWanted : ∀ order : Ordering, (order.isGT && !order.isGT) = false := by decide
  simp only [ScanExact, scanned, startsBelow, endsBeyond, endsAbove, endsAt, endpoint?,
    ← congr_right same, none, noneWanted]
  simp

variable (sorted : entries.Pairwise fun earlier later => (cmp (rank earlier) (rank later)).isLE = true)

include sorted

/-- The first scanned entry that is not at the start is the first one above it, if
that is below the end. -/
theorem find?_scanned :
    ((scanned cmp rank entries upper start).find? fun entry => !(cmp (rank entry) start == .eq)) =
      (entries.find? fun entry => (cmp (rank entry) start).isGT).filter fun entry =>
        endsBeyond cmp upper (rank entry) := by
  have downward : entries.Pairwise fun earlier later =>
      endsBeyond cmp upper (rank later) = true → endsBeyond cmp upper (rank earlier) = true := by
    cases upper with
    | unbounded => exact sorted.imp fun _ _ => rfl
    | included stop | excluded stop => exact pairwise_isLT sorted stop
  rw [← find?_filter_of_downward downward, scanned, find?_filter, find?_filter]
  congr 1
  funext entry
  cases cmp (rank entry) start <;> simp

/-- A scan from an excluded start below its end skips the rows at the start only. -/
theorem scanExact_iff_below (below : ∀ stop ∈ endpoint? upper, cmp start stop = .lt) :
    ScanExact cmp rank entries upper start shown skips ↔
      (∀ entry ∈ entries, cmp (rank entry) start = .eq → skips entry = true) ∧
        ∀ entry ∈ entries.find? fun entry => (cmp (rank entry) start).isGT,
          endsBeyond cmp upper (rank entry) = true → skips entry = false := by
  have initial : (scanned cmp rank entries upper start).Pairwise fun earlier later =>
      (cmp (rank later) start == .eq) = true → (cmp (rank earlier) start == .eq) = true := by
    refine (sorted.filter _).imp_of_mem fun {earlier later} isEarlier _ order atStart => ?_
    have notBelow := (mem_filter.mp isEarlier).2
    rw [Bool.and_eq_true, Bool.not_eq_true'] at notBelow
    rw [beq_iff_eq] at atStart ⊢
    exact eq_of_isLE_of_eq order atStart notBelow.1
  -- the range is what should be left of the scan, and its included end
  have split : (((scanned cmp rank entries upper start).filter fun entry =>
      !(cmp (rank entry) start == .eq)) ++
        entries.filter fun entry => endsAt cmp upper (rank entry)).Perm
      (entries.filter fun entry => startsBelow cmp (.excluded start) (rank entry) &&
        endsAbove cmp upper (rank entry)) := by
    refine (Perm.of_eq ?_).trans (scan_perm fun stop closed => ?_)
    · rw [scanned, filter_filter]
      congr 1
      refine filter_congr fun entry _ => ?_
      simp only [startsBelow]
      cases cmp (rank entry) start <;> simp
    · have swapped : cmp stop start = (cmp start stop).swap := eq_swap
      simp [startsBelow, swapped, below stop (by rw [closed]; rfl)]
  have suffix : ((scanned cmp rank entries upper start).filter fun entry =>
      !(cmp (rank entry) start == .eq)) <:+ scanned cmp rank entries upper start := by
    rw [← dropWhile_eq_filter initial]
    exact dropWhile_suffix _
  rw [ScanExact, ← Multiset.coe_eq_coe.mpr (split.map shown), map_append, map_append,
    ← Multiset.coe_add]
  refine (suffix_eq_iff (dropWhile_suffix _) suffix shown _).trans ?_
  refine (dropWhile_eq_filter_iff initial).trans (and_congr ?_ ?_)
  · refine ⟨fun passed entry mem atStart => passed entry ?_ (by simp [atStart]),
      fun passed entry isScanned atStart =>
        passed entry (mem_of_mem_filter isScanned) (beq_iff_eq.mp atStart)⟩
    have beyond : endsBeyond cmp upper (rank entry) = true := by
      unfold endsBeyond
      split
      case h_1 stop isStop =>
        exact Ordering.isLT_iff_eq_lt.mpr (Std.TransCmp.lt_of_eq_of_lt atStart (below stop isStop))
      case h_2 => rfl
    exact mem_filter.mpr ⟨mem, by simp [beyond, atStart]⟩
  · rw [find?_scanned sorted]
    simp

/-- The same for every valid range that excludes its start. -/
theorem scanExact_iff (valid : ValidRange cmp (.excluded start) upper) :
    ScanExact cmp rank entries upper start shown skips ↔
      (∀ stop, upper = .included stop → cmp start stop = .eq →
        ∀ entry ∈ entries, cmp (rank entry) start ≠ .eq) ∧
      (∀ entry ∈ entries, cmp (rank entry) start = .eq → skips entry = true) ∧
      ∀ entry ∈ entries.find? fun entry => (cmp (rank entry) start).isGT,
        endsBeyond cmp upper (rank entry) = true → skips entry = false := by
  by_cases degenerate : ∃ stop, upper = .included stop ∧ cmp start stop = .eq
  · obtain ⟨stop, rfl, same⟩ := degenerate
    refine (scanExact_iff_degenerate same).trans ⟨fun nothing => ?_, fun skips =>
      skips.1 stop rfl same⟩
    refine ⟨fun _ _ _ => nothing, fun entry mem equal => absurd equal (nothing entry mem), ?_⟩
    intro entry found beyond
    -- nothing is above the start and below the end
    have above := find?_some found
    simp only [endsBeyond, endpoint?, ← congr_right same,
      isLT_iff_eq_lt] at beyond
    rw [beyond] at above
    contradiction
  · have below : ∀ stop ∈ endpoint? upper, cmp start stop = .lt := by
      intro stop isStop
      cases upper with
      | unbounded => cases isStop
      | excluded last =>
        obtain rfl := Option.some.inj isStop
        exact valid
      | included last =>
        obtain rfl := Option.some.inj isStop
        cases order : cmp start last with
        | lt => rfl
        | eq => exact absurd ⟨last, rfl, order⟩ degenerate
        | gt => exact absurd order (valid start rfl last rfl)
    rw [scanExact_iff_below sorted below]
    exact ⟨fun skips => ⟨fun stop closed same => absurd ⟨stop, closed, same⟩ degenerate, skips⟩,
      And.right⟩

end

section

variable {env : Externals X} {state : PersistentState (Datum X)}
  {index primary : PersistentIndex} {secondary : List PersistentIndex} {kinds : List Kind}
  {lower upper : Bound (Key (Datum X))}

/-- The keys that a range lookup compares. -/
def Compared (state : PersistentState (Datum X)) (columns : List Nat)
    (lower upper : Bound (Key (Datum X))) (key : Key (Datum X)) : Prop :=
  (∃ row ∈ state.rows, row.clonedIndices columns = key) ∨ key ∈ endpoint? lower ∨
    key ∈ endpoint? upper

variable (state index) in
/-- The key of the row an entry points to. -/
def rank (entry : Bytes × Bytes) : Key (Datum X) := index.buildKey (state.rowAt entry.2)

/-- The entries of a B-tree index, ordered. -/
structure Ranked (env : Externals X) (kinds : List Kind) (state : PersistentState (Datum X))
    (primary index : PersistentIndex) (entries : List (Bytes × Bytes)) : Prop where
  rows : ((entries.map fun entry => state.rowAt entry.2 : List (Row (Datum X))) :
    Multiset (Row (Datum X))) = state.rows
  sorted : entries.Pairwise fun earlier later =>
    (keyOrder env kinds (rank state index earlier) (rank state index later)).isLE = true
  stored : ∀ entry ∈ entries, (entry.2, state.rowAt entry.2) ∈ state.database.rows.entries
  keys : ∀ entry ∈ entries, ∃ extra, entry.1 =
    serializeKey (.ofExternals env) (rank state index entry) extra
  pks : ∀ entry ∈ entries, ∃ extra, entry.2 =
    serializeKey (.ofExternals env) (primary.buildKey (state.rowAt entry.2)) extra

/-- The entries of a B-tree index are sorted by the keys of their rows. -/
theorem Consistent.ranked [DecidableEq X] (inv : Consistent (.ofExternals env) state)
    (indexed : state.indices = primary :: secondary) (mem : index ∈ secondary)
    (ordered : env.Ordered) (sized : kinds.length = index.index.columns.length)
    (comparable : Comparable env kinds (Compared state index.index.columns lower upper)) :
    Ranked env kinds state primary index (index.ordered env state.database) := by
  let family := (state.database.families index.columnFamily).entries
  have pointed : ∀ entry ∈ family,
      (entry.2, state.rowAt entry.2) ∈ state.database.rows.entries ∧ ∃ extra, entry.1 =
        serializeKey (.ofExternals env) (index.buildKey (state.rowAt entry.2)) extra := by
    intro entry inFamily
    obtain ⟨stored, key⟩ := stored_of_mem inv indexed mem inFamily
    exact ⟨stored, _, key.trans (entryKey_eq entry.2)⟩
  have compared : ∀ entry ∈ family,
      Compared state index.index.columns lower upper (index.buildKey (state.rowAt entry.2)) := by
    intro entry inFamily
    exact .inl ⟨_, PersistentState.mem_rows.mpr ⟨_, (pointed entry inFamily).1⟩, rfl⟩
  have held : ∀ entry ∈ family,
      Holds env (Compared state index.index.columns lower upper) entry.1 := by
    intro entry inFamily
    obtain ⟨extra, key⟩ := (pointed entry inFamily).2
    exact ⟨_, extra, compared entry inFamily, key⟩
  have nodup : (family.map Prod.fst).Nodup := by
    refine pairwise_map.mpr ((state.database.families index.columnFamily).sorted.imp ?_)
    intro left right below same
    rw [same] at below
    exact Std.OrientedCmp.not_lt_of_lt below below
  obtain ⟨sorted, perm⟩ := SortedMap.resort_sorted_perm (comparable.orderedOn ordered) held nodup
  rw [sized] at sorted perm
  have inFamily : ∀ entry ∈ index.ordered env state.database, entry ∈ family :=
    fun entry inOrdered => perm.subset inOrdered
  refine ⟨?_, ?_, fun entry inOrdered => (pointed entry (inFamily entry inOrdered)).1,
    fun entry inOrdered => (pointed entry (inFamily entry inOrdered)).2, ?_⟩
  · exact Multiset.coe_eq_coe.mpr ((perm.map _).trans (rows_pointed inv indexed mem))
  · refine sorted.imp_of_mem fun {earlier later} isEarlier isLater below => ?_
    obtain ⟨_, earlierKey⟩ := (pointed earlier (inFamily earlier isEarlier)).2
    obtain ⟨_, laterKey⟩ := (pointed later (inFamily later isLater)).2
    rw [earlierKey, laterKey, ← sized, comparable.compareKeys_eq
      (compared earlier (inFamily earlier isEarlier)) (compared later (inFamily later isLater))]
      at below
    change ((keyOrder env kinds (rank state index earlier) (rank state index later)).then _)
      = .lt at below
    cases order : keyOrder env kinds (rank state index earlier) (rank state index later) with
    | lt => rfl
    | eq => rfl
    | gt =>
      rw [order] at below
      contradiction
  · intro entry inOrdered
    obtain ⟨epoch, seq, pk, _⟩ :=
      inv.keyed_primary indexed (pointed entry (inFamily entry inOrdered)).1
    exact ⟨_, pk.trans (primaryKey_eq epoch seq)⟩

theorem prefixTransform_eq_iff (key start : Key (Datum X)) (extra : Bytes) :
    prefixTransform (serializeKey (.ofExternals env) key extra) =
        serializePrefix (.ofExternals env) start ↔
      serialize env key = serialize env start := by
  rw [prefixTransform_serializeKey]
  constructor
  · intro same
    exact (serializeKey_inj same).1
  · intro same
    simp [serializePrefix, serializeKey, ofExternals, same]

/-- Whether the skipping loop passes an entry: its primary key is written like
the start of the range. -/
def skipped (env : Externals X) (state : PersistentState (Datum X)) (primary : PersistentIndex)
    (start : Key (Datum X)) (entry : Bytes × Bytes) : Bool :=
  decide (Key.serialize env (primary.buildKey (state.rowAt entry.2)) =
    Key.serialize env start)

section

variable {entries : List (Bytes × Bytes)} {entry : Bytes × Bytes} {bound start : Key (Datum X)}
  (ranked : Ranked env kinds state primary index entries) (ordered : env.Ordered)
  (comparable : Comparable env kinds (Compared state index.index.columns lower upper))

include ranked

namespace Ranked

theorem mem_rows (mem : entry ∈ entries) : state.rowAt entry.2 ∈ state.rows :=
  PersistentState.mem_rows.mpr ⟨_, ranked.stored entry mem⟩

theorem compared (mem : entry ∈ entries) :
    Compared state index.index.columns lower upper (rank state index entry) :=
  .inl ⟨_, ranked.mem_rows mem, rfl⟩

theorem forall_rows {wanted : Row (Datum X) → Prop} :
    (∀ row ∈ state.rows, wanted row) ↔ ∀ entry ∈ entries, wanted (state.rowAt entry.2) := by
  rw [← ranked.rows]
  exact forall_mem_map

include comparable

theorem isLT_eq (isBound : Compared state index.index.columns lower upper bound)
    (mem : entry ∈ entries) :
    (compareKeys env kinds.length entry.1 (serializePrefix (.ofExternals env) bound)).isLT =
      (keyOrder env kinds (rank state index entry) bound).isLT := by
  obtain ⟨extra, key⟩ := ranked.keys entry mem
  rw [key, comparable.isLT_iff (ranked.compared mem) isBound extra]

include ordered

theorem boundedAbove_eq :
    boundedAbove (compareKeys env kinds.length) entries
        (boundMap (serializePrefix (.ofExternals env)) upper) =
      entries.filter fun entry =>
        endsBeyond (keyOrder env kinds) upper (rank state index entry) := by
  have := transCmp_keyOrder ordered kinds
  cases upper with
  | unbounded => exact (filter_eq_self.mpr fun _ _ => rfl).symm
  | included stop | excluded stop =>
    refine Eq.trans ?_ (takeWhile_eq_filter (pairwise_isLT ranked.sorted stop))
    exact takeWhile_congr_of_mem fun entry => ranked.isLT_eq comparable (.inr (.inr rfl))

theorem inclusiveEnd_eq :
    inclusiveEnd (compareKeys env kinds.length) entries
        (boundMap (serializePrefix (.ofExternals env)) upper) =
      entries.filter fun entry =>
        endsAt (keyOrder env kinds) upper (rank state index entry) := by
  have := transCmp_keyOrder ordered kinds
  cases upper with
  | excluded _ | unbounded => exact (filter_eq_nil_iff.mpr fun _ _ => Bool.false_ne_true).symm
  | included stop =>
    have isStop : Compared state index.index.columns lower (.included stop) stop := .inr (.inr rfl)
    refine Eq.trans ?_ (takeWhile_dropWhile_rank ranked.sorted stop)
    simp only [inclusiveEnd, boundMap]
    rw [dropWhile_congr_of_mem fun entry => ranked.isLT_eq comparable isStop]
    refine takeWhile_congr_of_mem fun entry rest => ?_
    have mem := (dropWhile_sublist _).subset rest
    obtain ⟨extra, key⟩ := ranked.keys entry mem
    rw [Bool.eq_iff_iff, decide_eq_true_iff, beq_iff_eq, key, prefixTransform_eq_iff,
      comparable.serialize_iff ordered (ranked.compared mem) isStop,
      comparable.compareIn_eq (ranked.compared mem) isStop]

theorem dropWhile_eq (isStart : Compared state index.index.columns lower upper start) :
    ((entries.filter fun entry =>
        endsBeyond (keyOrder env kinds) upper (rank state index entry)).dropWhile fun entry =>
      (compareKeys env kinds.length entry.1 (serializePrefix (.ofExternals env) start)).isLT) =
      scanned (keyOrder env kinds) (rank state index) entries upper start := by
  have := transCmp_keyOrder ordered kinds
  rw [dropWhile_congr_of_mem fun entry mem =>
    ranked.isLT_eq comparable isStart (mem_of_mem_filter mem),
    dropWhile_eq_filter (pairwise_isLT (ranked.sorted.filter _) _), filter_filter, scanned]

theorem scanRange_perm (notExcluded : ∀ start, lower ≠ .excluded start)
    (valid : ValidRange (keyOrder env kinds) lower upper) :
    (scanRange (compareKeys env kinds.length) entries
        (boundMap (serializePrefix (.ofExternals env)) lower)
        (boundMap (serializePrefix (.ofExternals env)) upper)).Perm
      (entries.filter fun entry =>
        startsBelow (keyOrder env kinds) lower (rank state index entry) &&
          endsAbove (keyOrder env kinds) upper (rank state index entry)) := by
  have := transCmp_keyOrder ordered kinds
  refine Perm.trans (Perm.of_eq ?_) (scan_perm fun stop => startsBelow_of_valid notExcluded valid)
  rw [scanRange, ranked.boundedAbove_eq ordered comparable,
    ranked.inclusiveEnd_eq ordered comparable]
  congr 1
  cases lower with
  | unbounded => simp [startedAt, boundMap, startsBelow]
  | excluded start => exact absurd rfl (notExcluded start)
  | included start => exact ranked.dropWhile_eq ordered comparable (.inr (.inl rfl))

theorem scanRange_excluded (excluded : lower = .excluded start) :
    scanRange (compareKeys env kinds.length) entries
        (boundMap (serializePrefix (.ofExternals env)) lower)
        (boundMap (serializePrefix (.ofExternals env)) upper) =
      (scanned (keyOrder env kinds) (rank state index) entries upper start).dropWhile
          (skipped env state primary start) ++
        entries.filter fun entry =>
          endsAt (keyOrder env kinds) upper (rank state index entry) := by
  subst excluded
  rw [scanRange, ranked.boundedAbove_eq ordered comparable,
    ranked.inclusiveEnd_eq ordered comparable]
  simp only [startedAt, boundMap]
  rw [ranked.dropWhile_eq ordered comparable (.inr (.inl rfl))]
  congr 1
  refine dropWhile_congr_of_mem fun entry mem => decide_eq_decide.mpr ?_
  obtain ⟨extra, pk⟩ := ranked.pks entry (mem_of_mem_filter mem)
  conv_lhs => rw [pk]
  exact prefixTransform_eq_iff _ start extra

omit ordered in
theorem wanted_eq : (state.rows.filter fun row =>
        (startsBelow (compareIn env) lower (index.buildKey row) &&
          endsAbove (compareIn env) upper (index.buildKey row)) = true) =
      (((entries.filter fun entry =>
        startsBelow (keyOrder env kinds) lower (rank state index entry) &&
          endsAbove (keyOrder env kinds) upper (rank state index entry)).map
        fun entry => state.rowAt entry.2 : List (Row (Datum X))) : Multiset (Row (Datum X))) := by
  rw [← ranked.rows, Multiset.filter_coe, filter_map]
  congr 2
  refine filter_congr fun entry mem => ?_
  have isKey : Compared state index.index.columns lower upper _ := ranked.compared mem
  have start : startsBelow _ lower _ = startsBelow _ lower _ := startsBelow_eq fun _ isStart =>
    comparable.compareIn_eq isKey (.inr (.inl isStart))
  have stop : endsAbove _ upper _ = endsAbove _ upper _ := endsAbove_eq fun _ isStop =>
    comparable.compareIn_eq isKey (.inr (.inr isStop))
  rw [← start, ← stop]
  simp [rank]

end Ranked

end

variable (env state index) in
/-- The first row of the index whose key is above a given one. -/
def firstBeyond (start : Key (Datum X)) : Option (Row (Datum X)) :=
  ((index.ordered env state.database).find? fun entry =>
      (Key.compareIn env (index.buildKey (state.rowAt entry.2)) start).isGT).map
    fun entry => state.rowAt entry.2

/-- The loop that skips an excluded start does what it is for: the primary keys
of the rows at the start are written like it, that of the next row in the range
is not, and the start is not the included end of the range. -/
structure SkipsStart (env : Externals X) (state : PersistentState (Datum X))
    (primary index : PersistentIndex) (start : Key (Datum X)) (upper : Bound (Key (Datum X))) :
    Prop where
  apart : ∀ stop, upper = .included stop → Key.compareIn env start stop = .eq →
    ∀ row ∈ state.rows, Key.compareIn env (index.buildKey row) start ≠ .eq
  equal : ∀ row ∈ state.rows, Key.compareIn env (index.buildKey row) start = .eq →
    Key.serialize env (primary.buildKey row) = Key.serialize env start
  next : ∀ row ∈ firstBeyond env state index start,
    endsBeyond (Key.compareIn env) upper (index.buildKey row) = true →
      Key.serialize env (primary.buildKey row) ≠ Key.serialize env start

theorem mem_of_mem_scanRange {cmp : Bytes → Bytes → Ordering} {entry : Bytes × Bytes}
    {entries : List (Bytes × Bytes)} {lower upper : Bound Bytes}
    (scanned : entry ∈ scanRange cmp entries lower upper) : entry ∈ entries := by
  have bounded : ∀ entry ∈ boundedAbove cmp entries upper, entry ∈ entries := by
    intro entry mem
    unfold boundedAbove at mem
    split at mem
    · exact (takeWhile_sublist _).subset mem
    · exact mem
  rcases mem_append.mp scanned with started | ending
  · unfold startedAt at started
    split at started
    · exact bounded entry ((dropWhile_sublist _).subset started)
    · exact bounded entry ((dropWhile_sublist _).subset ((dropWhile_sublist _).subset started))
    · exact bounded entry started
  · unfold inclusiveEnd at ending
    split at ending
    · exact (dropWhile_sublist _).subset ((takeWhile_sublist _).subset ending)
    · exact absurd ending not_mem_nil

section

variable (ranked : Ranked env kinds state primary index (index.ordered env state.database))

include ranked

/-- What a scan skips, by the values of keys instead of their bytes. -/
theorem Ranked.skipsStart_iff
    (comparable : Comparable env kinds (Compared state index.index.columns (.excluded start) upper)) :
    SkipsStart env state primary index start upper ↔
      (∀ stop, upper = .included stop → keyOrder env kinds start stop = .eq →
        ∀ entry ∈ index.ordered env state.database,
          keyOrder env kinds (rank state index entry) start ≠ .eq) ∧
      (∀ entry ∈ index.ordered env state.database,
        keyOrder env kinds (rank state index entry) start = .eq →
          skipped env state primary start entry = true) ∧
      ∀ entry ∈ (index.ordered env state.database).find? fun entry =>
          (keyOrder env kinds (rank state index entry) start).isGT,
        endsBeyond (keyOrder env kinds) upper (rank state index entry) = true →
          skipped env state primary start entry = false := by
  have isStart : Compared state index.index.columns (.excluded start) upper start :=
    .inr (.inl rfl)
  have agree : ∀ entry ∈ index.ordered env state.database,
      compareIn env (index.buildKey (state.rowAt entry.2)) start =
        keyOrder env kinds (rank state index entry) start :=
    fun entry mem => comparable.compareIn_eq (ranked.compared mem) isStart
  have first : firstBeyond env state index start =
      ((index.ordered env state.database).find? fun entry =>
        (keyOrder env kinds (rank state index entry) start).isGT).map
          fun entry => state.rowAt entry.2 := by
    unfold firstBeyond
    rw [← head?_filter, ← head?_filter]
    congr 2
    exact filter_congr fun entry mem => by rw [agree entry mem]
  refine Iff.trans ⟨fun skips => And.intro skips.apart (And.intro skips.equal skips.next),
    fun parts => ⟨parts.1, parts.2.1, parts.2.2⟩⟩ (and_congr ?_ (and_congr ?_ ?_))
  · refine forall₂_congr fun stop closed => ?_
    rw [comparable.compareIn_eq isStart (.inr (.inr (by rw [closed]; rfl))), ranked.forall_rows]
    exact imp_congr_right fun _ => forall₂_congr fun entry mem => by rw [agree entry mem]
  · rw [ranked.forall_rows]
    refine forall₂_congr fun entry mem => ?_
    rw [agree entry mem, skipped, decide_eq_true_iff]
  · rw [first, Option.forall_mem_map]
    refine forall₂_congr fun entry found => ?_
    rw [skipped, decide_eq_false_iff_not, ← endsBeyond_eq fun _ isStop =>
      comparable.compareIn_eq (ranked.compared (mem_of_find?_eq_some found))
        (.inr (.inr isStop))]
    rfl

variable (comparable : Comparable env kinds (Compared state index.index.columns lower upper))

include comparable

/-- A range lookup is exact just if its scan is. -/
theorem Ranked.exact_iff (ordered : env.Ordered) (valid : ValidRange (compareIn env) lower upper) :
    (((scanRange (compareKeys env kinds.length) (index.ordered env state.database)
        (boundMap (serializePrefix (.ofExternals env)) lower)
        (boundMap (serializePrefix (.ofExternals env)) upper)).map
          fun entry => state.rowAt entry.2 : List (Row (Datum X))) : Multiset (Row (Datum X))) =
      (state.rows.filter fun row =>
        (startsBelow (compareIn env) lower (index.buildKey row) &&
          endsAbove (compareIn env) upper (index.buildKey row)) = true) ↔
      ∀ start, lower = .excluded start → SkipsStart env state primary index start upper := by
  have := transCmp_keyOrder ordered kinds
  have valid := valid.congr fun start isStart stop isStop =>
    comparable.compareIn_eq (.inr (.inl isStart)) (.inr (.inr isStop))
  rw [ranked.wanted_eq comparable]
  by_cases excluded : ∃ start, lower = .excluded start
  · obtain ⟨start, isExcluded⟩ := excluded
    rw [ranked.scanRange_excluded ordered comparable isExcluded]
    subst isExcluded
    refine (scanExact_iff ranked.sorted valid).trans ((ranked.skipsStart_iff comparable).symm.trans ?_)
    simp
  · refine iff_of_true ?_ fun start isStart => absurd ⟨start, isStart⟩ excluded
    exact Multiset.coe_eq_coe.mpr ((ranked.scanRange_perm ordered comparable
      (fun start isStart => excluded ⟨start, isStart⟩) valid).map _)

theorem Ranked.lookupRangeRows_eq (sized : kinds.length = index.index.columns.length)
    (held : ∀ entry ∈ (state.database.families index.columnFamily).entries,
      Holds env (Compared state index.index.columns lower upper) entry.1) :
    index.lookupRangeRows env state.database lower upper =
      .ok ((scanRange (compareKeys env kinds.length) (index.ordered env state.database)
        (boundMap (serializePrefix (.ofExternals env)) lower)
        (boundMap (serializePrefix (.ofExternals env)) upper)).map
          fun entry => state.rowAt entry.2) := by
  have readable : ∀ bytes, Holds env (Compared state index.index.columns lower upper) bytes →
      (deserializeKey env kinds.length bytes).isSome = true := by
    rintro _ ⟨key, extra, isKey, rfl⟩
    rw [comparable.toReadBack.deserializeKey_eq isKey]
    rfl
  have endpoints : ∀ bound : Bound (Key (Datum X)),
      (∀ key ∈ endpoint? bound, Compared state index.index.columns lower upper key) →
      ∀ bytes ∈ (endpoint? (boundMap (serializePrefix (.ofExternals env)) bound)).toList,
        Holds env (Compared state index.index.columns lower upper) bytes := by
    intro bound isKey bytes listed
    cases bound with
    | unbounded => exact absurd listed not_mem_nil
    | included key | excluded key =>
      obtain rfl := mem_singleton.mp listed
      exact ⟨key, [], isKey key rfl, rfl⟩
  simp only [PersistentIndex.lookupRangeRows]
  rw [← sized, if_pos ?_]
  · refine mapM_ok fun entry scanned => ?_
    have stored := ranked.stored entry (mem_of_mem_scanRange scanned)
    rw [Database.getRow, BTreeMap.get?_eq_some.mpr stored]
  · rw [all_eq_true]
    intro bytes listed
    apply readable
    rcases mem_append.mp listed with (earlier | atStop)
    · rcases mem_append.mp earlier with stored | atStart
      · obtain ⟨entry, inFamily, rfl⟩ := mem_map.mp stored
        exact held entry inFamily
      · exact endpoints lower (fun key isKey => .inr (.inl isKey)) bytes atStart
    · exact endpoints upper (fun key isKey => .inr (.inr isKey)) bytes atStop

end

/-- The stored rows whose keys are in a range. -/
def PersistentState.rowsInRange (env : Externals X) (state : PersistentState (Datum X))
    (columns : List Nat) (lower upper : Bound (Key (Datum X))) : Multiset (Row (Datum X)) :=
  state.rows.filter fun row =>
    (startsBelow (Key.compareIn env) lower (row.clonedIndices columns) &&
      endsAbove (Key.compareIn env) upper (row.clonedIndices columns)) = true

/-- `lookup_range` returns the stored rows whose keys are in the range. -/
def RangeExact (env : Externals X) (state : PersistentState (Datum X)) (columns : List Nat)
    (lower upper : Bound (Key (Datum X))) : Prop :=
  ∃ found, state.lookupRange env columns lower upper = .ok (.some found) ∧
    (found : Multiset (Row (Datum X))) = state.rowsInRange env columns lower upper

variable [DecidableEq X] {schema : Nat → Kind}

/-- Range lookups in one state of a run. -/
theorem Kept.rangeExact_iff (kept : Kept env schema state) (ordered : env.Ordered)
    (indexed : state.indices = primary :: secondary) (mem : index ∈ secondary)
    (found : state.db.inner.index .bTreeMap index.index.columns = .ok index)
    (comparable : Comparable env (index.index.columns.map schema)
      (Compared state index.index.columns lower upper))
    (valid : ValidRange (compareIn env) lower upper) :
    RangeExact env state index.index.columns lower upper ↔
      ∀ start, lower = .excluded start → SkipsStart env state primary index start upper := by
  have sized : (index.index.columns.map schema).length = index.index.columns.length := length_map _
  have ranked := kept.consistent.ranked indexed mem ordered sized comparable
  have read := ranked.lookupRangeRows_eq comparable sized (by
    intro entry inFamily
    obtain ⟨stored, key⟩ := stored_of_mem kept.consistent indexed mem inFamily
    exact ⟨_, _, .inl ⟨_, PersistentState.mem_rows.mpr ⟨_, stored⟩, rfl⟩,
      key.trans (entryKey_eq entry.2)⟩)
  have lookedUp : state.lookupRange env index.index.columns lower upper =
      (index.lookupRangeRows env state.database lower upper).map .some := by
    rw [PersistentState.lookupRange, PersistentStateHandle.lookupRange,
      if_neg (by simp [isBehind_of_level kept.level]), found]
  refine Iff.trans ?_ (ranked.exact_iff comparable ordered valid)
  rw [RangeExact, lookedUp, read]
  constructor
  · rintro ⟨rows, looked, exact_⟩
    obtain rfl := RangeLookupResult.some.inj (Except.ok.inj looked)
    exact exact_
  · intro exact_
    exact ⟨_, rfl, exact_⟩

end

/-! ## Examples of ranges -/

def intKey (number : Int) : Key (Datum Empty) := [.value (.int number)]

theorem ascii_ordered : Externals.ascii.Ordered where
  foreign _ :=
    { eq_swap := fun {left} => left.elim
      isLE_trans := fun {left} => left.elim }

theorem threeRows_comparable {keys : Key (Datum Empty) → Prop}
    (within_ : ∀ key, keys key → key ∈ [pairRow 1 2, pairRow 1 3, pairRow 2 2]) :
    Comparable .ascii [.int, .int] keys := by
  refine ⟨⟨fun key isKey => ?_, by decide⟩, fun left right isLeft isRight => ?_,
    fun left right isLeft isRight => ?_⟩
  · have listed := within_ key isKey
    simp only [List.mem_cons, List.not_mem_nil, or_false] at listed
    rcases listed with rfl | rfl | rfl <;> exact .cons (.inl rfl) (.cons (.inl rfl) .nil)
  · have agree : ∀ left ∈ [pairRow 1 2, pairRow 1 3, pairRow 2 2],
        ∀ right ∈ [pairRow 1 2, pairRow 1 3, pairRow 2 2], compareIn .ascii
          (Key.transform .ascii left) (Key.transform .ascii right) = compareIn .ascii left right := by
      decide
    exact agree left (within_ left isLeft) right (within_ right isRight)
  · have alike : ∀ left ∈ [pairRow 1 2, pairRow 1 3, pairRow 2 2],
        ∀ right ∈ [pairRow 1 2, pairRow 1 3, pairRow 2 2], compareIn .ascii left right = .eq →
          serialize .ascii left = serialize .ascii right := by
      decide
    exact alike left (within_ left isLeft) right (within_ right isRight)

theorem threeRows_compared {state : PersistentState (Datum Empty)}
    (rows : state.rows = ([pairRow 1 2, pairRow 1 3, pairRow 2 2] : List _)) (key : Key (Datum Empty))
    (compared : Compared state [0, 1] (.excluded (pairRow 1 2)) .unbounded key) :
    key ∈ [pairRow 1 2, pairRow 1 3, pairRow 2 2] := by
  rcases compared with ⟨row, stored, rfl⟩ | isStart | isStop
  · rw [rows] at stored
    have same : ∀ row ∈ [pairRow 1 2, pairRow 1 3, pairRow 2 2],
        row.clonedIndices [0, 1] = row := by decide
    rwa [same row (Multiset.mem_coe.mp stored)]
  · rw [← Option.some.inj isStart]
    exact List.mem_cons_self
  · exact absurd isStop (Option.not_mem_none key)

theorem threeRows_skipsStart {state : PersistentState (Datum Empty)}
    (rows : state.rows = ([pairRow 1 2, pairRow 1 3, pairRow 2 2] : List _))
    {primary index : PersistentIndex} (isPrimary : primary.index.columns = [0, 1])
    (isIndex : index.index.columns = [0, 1])
    (beyond : firstBeyond .ascii state index (pairRow 1 2) = some (pairRow 1 3)) :
    SkipsStart .ascii state primary index (pairRow 1 2) .unbounded := by
  have keyed : ∀ row ∈ [pairRow 1 2, pairRow 1 3, pairRow 2 2],
      row.clonedIndices [0, 1] = row := by decide
  refine ⟨?_, fun row stored here => ?_, fun row isNext _ => ?_⟩
  · intro stop closed
    cases closed
  · have written : ∀ row ∈ [pairRow 1 2, pairRow 1 3, pairRow 2 2],
        compareIn .ascii row (pairRow 1 2) = .eq →
          serialize .ascii row = serialize .ascii (pairRow 1 2) := by decide
    rw [rows, Multiset.mem_coe] at stored
    rw [PersistentIndex.buildKey, isIndex, keyed row stored] at here
    rw [PersistentIndex.buildKey, isPrimary, keyed row stored]
    exact written row stored here
  · obtain rfl := Option.some.inj (beyond.symm.trans isNext)
    rw [PersistentIndex.buildKey, isPrimary]
    decide

end ReadySet.DataflowState.Persistent
