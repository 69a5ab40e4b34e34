import ReadySet.Ops.Join.Updates

/-!
Owns upqueries on columns of both parents of a join: how `handle_upquery` splits
them, and what `on_input` makes of the replies over a whole run.

Replies wait under the replay columns and their side alone. They are paired as
they should be while no two upqueries on the same columns wait at once; and even
then the join compares NULLs as equal, and every key of the one half with every
key of the other.
-/

namespace ReadySet.Ops

open Data Library Dataflow Function Multiset

universe u

structure ColumnMiss (V : Type u) where
  node : LocalNodeIndex
  columnIndices : List Nat
  missedKeys : List (KeyComparison V)

/-! ## Splitting an upquery -/

section

variable {V : Type u}

/-- The columns of the left and the right parent that an output column stands for
(`resolve_col`). -/
def JoinConfig.resolveCol (join : JoinConfig) (column : Nat) : Option Nat × Option Nat :=
  match join.emit[column]? with
  | none => (none, none)
  | some (side, parentColumn) =>
    match (join.on.find? fun pair => side = .left ∧ pair.1 = parentColumn).or
        (join.on.find? fun pair => side = .right ∧ pair.2 = parentColumn) with
    | some (onLeft, onRight) => (some onLeft, some onRight)
    | none => if side = .left then (some parentColumn, none) else (none, some parentColumn)

/-- The parent that is asked for a column. -/
def JoinConfig.columnSide (join : JoinConfig) (column : Nat) : ReadySetResult (Side × Nat) :=
  if column < join.emit.length then
    match join.resolveCol column with
    | (some left, _) => .ok (.left, left)
    | (none, some right) => .ok (.right, right)
    | (none, none) => .error (.internal s!"could not resolve col {column} in join upquery")
  else .error (.panicked "index out of bounds")

/-- The values of a key that go to one parent. -/
def halfKey (side : Side) (sides : List Side) (key : Key V) : Key V :=
  ((key.zip sides).filter fun pair => pair.2 = side).map Prod.fst

def halfBound (side : Side) (sides : List Side) : Bound (Key V) → ReadySetResult (Bound (Key V))
  | .included key => nonempty key .included
  | .excluded key => nonempty key .excluded
  | .unbounded => .ok .unbounded
where
  nonempty (key : Key V) (bound : Key V → Bound (Key V)) : ReadySetResult (Bound (Key V)) :=
    if halfKey side sides key = [] then .error (.panicked "unwrap")
    else .ok (bound (halfKey side sides key))

def halfComparison (side : Side) (sides : List Side) :
    KeyComparison V → ReadySetResult (KeyComparison V)
  | .equal key =>
    if halfKey side sides key = [] then
      .error (.internal "Join handle_upquery passed a non-straddled join key")
    else .ok (.equal (halfKey side sides key))
  | .range lower upper => do
      return .range (← halfBound side sides lower) (← halfBound side sides upper)

/-- `Join::handle_upquery`: one upquery to the left parent and one to the right. -/
def JoinConfig.handleUpquery (join : JoinConfig) (miss : ColumnMiss V) :
    ReadySetResult (ColumnMiss V × ColumnMiss V) :=
  match miss.columnIndices.mapM join.columnSide with
  | .error error => .error error
  | .ok columns => do
      let columnsOf := fun side => (columns.filter fun pair => pair.1 = side).map Prod.snd
      let sides := columns.map Prod.fst
      let keys ← miss.missedKeys.mapM fun key => do
        return (← halfComparison .left sides key, ← halfComparison .right sides key)
      if columnsOf .left = [] ∨ columnsOf .right = [] then .error (.panicked "unwrap")
      else
        return (⟨join.left, columnsOf .left, keys.map Prod.fst⟩,
          ⟨join.right, columnsOf .right, keys.map Prod.snd⟩)

/-- The key columns are sourced from both parents: some come from the left one
alone, and some from the right one alone (`column_source`). -/
def JoinConfig.Straddles (join : JoinConfig) (columns : List Nat) : Prop :=
  (∃ column ∈ columns, (join.resolveCol column).1 = none) ∧
    ∃ column ∈ columns, (join.resolveCol column).2 = none

/-- Upqueries and replays resolve columns alike. -/
theorem JoinConfig.resolveCol_eq (join : JoinConfig) (col : Nat) :
    join.resolveCol col =
      (join.replayColumn (join.parent .left) col, join.replayColumn (join.parent .right) col) := by
  have nodup : join.right ≠ join.left := join.parents_distinct.symm
  have nothing : (join.on.find? fun _ => false) = none := List.find?_eq_none.mpr (by simp)
  unfold resolveCol replayColumn
  cases join.emit[col]? with
  | none => rfl
  | some source =>
    obtain ⟨side, parentColumn⟩ := source
    cases side with
    | left =>
      cases found : join.on.find? fun pair => pair.1 = parentColumn with
      | none => simp [parent, nodup, found, nothing]
      | some pair => simpa [parent, nodup, found] using (List.find?_some found).symm
    | right =>
      cases found : join.on.find? fun pair => pair.2 = parentColumn with
      | none => simp [parent, join.parents_distinct, found, nothing]
      | some pair =>
        simpa [parent, join.parents_distinct, found, nothing] using (List.find?_some found).symm

theorem JoinConfig.Straddles.replayKeyCols {join : JoinConfig} {cols : List Nat}
    (straddles : join.Straddles cols) {replay : ReplayContext V}
    (isKey : replay.key = some cols) (side : Side) :
    join.replayKeyCols (join.parent side) replay = none := by
  have unresolved : ∃ col ∈ cols, join.replayColumn (join.parent side) col = none := by
    simp only [JoinConfig.Straddles, join.resolveCol_eq] at straddles
    cases side with
    | left => exact straddles.1
    | right => exact straddles.2
  obtain ⟨col, mem, missing⟩ := unresolved
  simp only [JoinConfig.replayKeyCols, isKey]
  cases resolved : cols.mapM (join.replayColumn (join.parent side)) with
  | none => rfl
  | some results =>
    obtain ⟨_, _, found⟩ := exists_right_of_forall₂ (mapM_some resolved) mem
    rw [missing] at found
    contradiction

/-! ## The columns of a joined row -/

namespace JoinConfig

variable {join : JoinConfig} {side : Side} {left right : Row V}

/-- The row of a joined pair that a parent has. -/
def ofSide (side : Side) (left right : Row V) : Row V :=
  match side with
  | .left => left
  | .right => right

theorem Matches.at_eq [DecidableEq V] (matched : join.Matches left right) {pair : Nat × Nat}
    (joins : pair ∈ join.on) : left.at pair.1 = right.at pair.2 := by
  have same := matched.1
  rw [Row.clonedIndices, Row.clonedIndices, onLeft, onRight, List.map_map, List.map_map] at same
  exact List.map_inj_left.mp same pair joins

/-- An output column of a joined pair has the value of the column it resolves to. -/
theorem at_generateRow [DecidableEq V] (matched : join.Matches left right) {col ownColumn : Nat}
    (resolved : join.replayColumn (join.parent side) col = some ownColumn) :
    (join.generateRow left right).at col = (ofSide side left right).at ownColumn := by
  cases source : join.emit[col]? with
  | none => simp [replayColumn, source] at resolved
  | some source' =>
    obtain ⟨from_, parentColumn⟩ := source'
    have emitted : (join.generateRow left right).at col =
        (ofSide from_ left right).at parentColumn := by
      cases from_ <;> simp [generateRow, Row.at, source, ofSide]
    rw [emitted]
    cases from_ with
    | left =>
      cases side with
      | left =>
        obtain rfl : parentColumn = ownColumn := by
          simpa [replayColumn, source, parent] using resolved
        rfl
      | right =>
        obtain ⟨onLeft, found⟩ : ∃ onLeft, (join.on.find? fun pair => pair.1 = parentColumn) =
            some (onLeft, ownColumn) := by
          simpa [replayColumn, source, parent, join.parents_distinct.symm] using resolved
        obtain rfl : onLeft = parentColumn := by simpa using List.find?_some found
        exact matched.at_eq (List.mem_of_find?_eq_some found)
    | right =>
      cases side with
      | left =>
        obtain ⟨onRight, found⟩ : ∃ onRight, (join.on.find? fun pair => pair.2 = parentColumn) =
            some (ownColumn, onRight) := by
          simpa [replayColumn, source, parent, join.parents_distinct] using resolved
        obtain rfl : onRight = parentColumn := by simpa using List.find?_some found
        exact (matched.at_eq (List.mem_of_find?_eq_some found)).symm
      | right =>
        obtain rfl : parentColumn = ownColumn := by
          simpa [replayColumn, source, parent] using resolved
        rfl

theorem replayColumn_of_columnSide {col ownColumn : Nat}
    (asked : join.columnSide col = .ok (side, ownColumn)) :
    join.replayColumn (join.parent side) col = some ownColumn := by
  rw [columnSide, resolveCol_eq] at asked
  split at asked
  case isFalse => cases asked
  case isTrue =>
    split at asked
    case h_1 ownColumn' _ isLeft =>
      cases asked
      exact (Prod.mk.inj isLeft).1
    case h_2 isRight =>
      cases asked
      exact (Prod.mk.inj isRight).2
    case h_3 => cases asked

/-- An output column has the value of the parent that is asked for it. -/
theorem clonedIndices_generateRow [DecidableEq V] (matched : join.Matches left right)
    {cols : List Nat} {columns : List (Side × Nat)}
    (asked : cols.mapM join.columnSide = .ok columns) :
    (join.generateRow left right).clonedIndices cols =
      columns.map fun source => (ofSide source.1 left right).at source.2 := by
  induction cols generalizing columns with
  | nil =>
    obtain rfl := Except.ok.inj asked
    rfl
  | cons col cols ih =>
    rw [List.mapM_cons] at asked
    obtain ⟨source, here, asked⟩ := bind_eq_ok.mp asked
    obtain ⟨rest, later, same⟩ := bind_eq_ok.mp asked
    obtain rfl := Except.ok.inj same
    rw [Row.clonedIndices, List.map_cons, List.map_cons,
      at_generateRow matched (replayColumn_of_columnSide here)]
    exact congrArg (_ :: ·) (ih later)

end JoinConfig

/-- A key is made up of the values that go to the left and to the right parent. -/
theorem map_eq_iff_halfKey {columns : List (Side × Nat)} {value : Side × Nat → DfValue V}
    {key : Key V} (sized : key.length = columns.length) :
    columns.map value = key ↔ ∀ side, (columns.filter fun source => source.1 = side).map value =
      halfKey side (columns.map Prod.fst) key := by
  induction columns generalizing key with
  | nil => simp [List.length_eq_zero_iff.mp sized, halfKey]
  | cons source columns ih =>
    obtain ⟨first, rest, rfl⟩ := List.exists_cons_of_length_eq_add_one sized
    rw [List.map_cons, List.cons.injEq, ih (Nat.succ.inj sized)]
    constructor
    · rintro ⟨here, later⟩ side
      by_cases same : source.1 = side
      · simpa [halfKey, same, here] using later side
      · simpa [halfKey, same] using later side
    · intro halves
      have own := halves source.1
      simp only [halfKey, List.filter_cons, List.map_cons, List.zip_cons_cons, decide_true,
        if_true, List.cons.injEq] at own
      refine ⟨own.1, fun side => ?_⟩
      by_cases same : source.1 = side
      · exact same ▸ own.2
      · simpa [halfKey, same] using halves side

theorem halfComparison_equal {side : Side} {sides : List Side} {key : Key V}
    {half : KeyComparison V} (halved : halfComparison side sides (.equal key) = .ok half) :
    half = .equal (halfKey side sides key) := by
  rw [halfComparison] at halved
  split at halved
  case isTrue => cases halved
  case isFalse => exact (Except.ok.inj halved).symm

/-- How an upquery for one point is split. -/
theorem JoinConfig.handleUpquery_point {join : JoinConfig} {miss : ColumnMiss V} {key : Key V}
    {half : Side → ColumnMiss V} (halved : join.handleUpquery miss = .ok (half .left, half .right))
    (point : miss.missedKeys = [.equal key]) :
    ∃ columns, miss.columnIndices.mapM join.columnSide = .ok columns ∧
      ∀ side, (half side).columnIndices =
          (columns.filter fun source => source.1 = side).map Prod.snd ∧
        (half side).missedKeys = [.equal (halfKey side (columns.map Prod.fst) key)] := by
  unfold handleUpquery at halved
  cases asked : miss.columnIndices.mapM join.columnSide with
  | error _ => rw [asked] at halved; cases halved
  | ok columns =>
    refine ⟨columns, rfl, ?_⟩
    simp only [asked, point] at halved
    obtain ⟨keys, compared, halved⟩ := bind_eq_ok.mp halved
    rw [List.mapM_cons] at compared
    obtain ⟨pair, both, compared⟩ := bind_eq_ok.mp compared
    obtain ⟨rest, noMore, compared⟩ := bind_eq_ok.mp compared
    obtain rfl := Except.ok.inj compared
    obtain rfl := Except.ok.inj noMore
    obtain ⟨leftKey, isLeft, both⟩ := bind_eq_ok.mp both
    obtain ⟨rightKey, isRight, both⟩ := bind_eq_ok.mp both
    obtain rfl := Except.ok.inj both
    obtain rfl := halfComparison_equal isLeft
    obtain rfl := halfComparison_equal isRight
    split at halved
    case isTrue => cases halved
    case isFalse =>
      obtain ⟨isLeft, isRight⟩ := Prod.mk.inj (Except.ok.inj halved)
      rintro (_ | _)
      · exact isLeft ▸ ⟨rfl, rfl⟩
      · exact isRight ▸ ⟨rfl, rfl⟩

end

/-! ## Replies -/

/-- A reply to one half of an upquery. The replay names the key columns of the
join. -/
structure Reply (V : Type u) where
  upquery : Nat
  side : Side
  records : List (Record V)
  replay : ReplayContext V

/-- The join, the replies it has received and the records it has emitted for each
upquery. -/
structure Straddling (V : Type u) where
  join : Join V
  replies : Nat → Side → Option (List (Record V))
  emitted : Nat → List (Record V)

section

variable {V : Type u} [LinearOrder V] (nodes : DomainNodes V) (states : StateMap V)

def Straddling.start (join : Join V) : Straddling V := ⟨join, fun _ _ => none, fun _ => []⟩

def Straddling.step (state : Straddling V) (reply : Reply V) :
    ReadySetResult (List (Record V) × Straddling V) := do
  let (result, join) ← state.join.onInput (state.join.parent reply.side) reply.records reply.replay
    nodes states
  return (result.results,
    { join
      replies := Function.update state.replies reply.upquery
        (Function.update (state.replies reply.upquery) reply.side (some reply.records))
      emitted := Function.update state.emitted reply.upquery
        (state.emitted reply.upquery ++ result.results) })

/-- The rows whose columns hold one of the keys. -/
def covered (columns : List Nat) (keys : List (KeyComparison V)) (row : Row V) : Bool :=
  keys.any fun key => key.contains (row.clonedIndices columns)

/-- The outstanding upqueries of a join and the two upqueries that each is split
into. -/
structure Upqueries (V : Type u) [LinearOrder V] (config : JoinConfig) where
  miss : Nat → ColumnMiss V
  half : Nat → Side → ColumnMiss V
  straddles : ∀ upquery, config.Straddles (miss upquery).columnIndices
  split : ∀ upquery, config.handleUpquery (miss upquery) =
    .ok (half upquery .left, half upquery .right)

variable {config : JoinConfig} (upqueries : Upqueries V config) (tables : Tables V)

/-- The records are exactly the parent's rows for a half of an upquery. -/
def ExactReply (upquery : Nat) (side : Side) (records : List (Record V)) : Prop :=
  ∃ rows : List (Row V), records = rows.map .positive ∧ (rows : Multiset (Row V)) =
    (tables side).filter fun row => covered (upqueries.half upquery side).columnIndices
      (upqueries.half upquery side).missedKeys row = true

/-- The rows of the inner join that match an upquery's full key. -/
def wantedRows (upquery : Nat) : Multiset (Row V) :=
  (config.equiJoin tables).filter fun row =>
    covered (upqueries.miss upquery).columnIndices (upqueries.miss upquery).missedKeys row = true

/-- What is due to an upquery: nothing before both replies are there, and a single
reply waits in the buffer; then exactly the rows that match its full key. -/
structure Served (state : Straddling V) (upquery : Nat) : Prop where
  untouched : (∃ side, state.replies upquery side = none) → state.emitted upquery = []
  waiting : ∀ side records, state.replies upquery side = some records →
    state.replies upquery (otherSide side) = none →
      state.join.generatedColumnBuffer ((upqueries.miss upquery).columnIndices, side) = some records
  joined : (∀ side, state.replies upquery side ≠ none) →
    ∃ rows : List (Row V), state.emitted upquery = rows.map .positive ∧
      (rows : Multiset (Row V)) = wantedRows upqueries tables upquery

/-- **The replies that are joined right.** No other upquery on the same columns
waits for its second reply, and of the rows with equal join columns, NULLs
included, exactly those in both halves have no NULL there and match the full key. -/
structure Orderly (state : Straddling V) (reply : Reply V) : Prop where
  isKey : reply.replay.key = some (upqueries.miss reply.upquery).columnIndices
  fresh : state.replies reply.upquery reply.side = none
  exact_ : ExactReply upqueries tables reply.upquery reply.side reply.records
  inTurn : ∀ other ≠ reply.upquery,
    (upqueries.miss other).columnIndices = (upqueries.miss reply.upquery).columnIndices →
      (state.replies other .left = none ↔ state.replies other .right = none)
  separate : ∀ left ∈ tables .left, ∀ right ∈ tables .right,
    left.clonedIndices config.onLeft = right.clonedIndices config.onRight →
      (covered (upqueries.half reply.upquery .left).columnIndices
            (upqueries.half reply.upquery .left).missedKeys left = true ∧
          covered (upqueries.half reply.upquery .right).columnIndices
            (upqueries.half reply.upquery .right).missedKeys right = true ↔
        hasNull (left.clonedIndices config.onLeft) = false ∧
          covered (upqueries.miss reply.upquery).columnIndices
            (upqueries.miss reply.upquery).missedKeys (config.generateRow left right) = true)

variable {upqueries tables nodes states} {state : Straddling V} {reply : Reply V}

theorem covered_point {cols : List Nat} {key : Key V} {row : Row V} :
    covered cols [.equal key] row = true ↔ row.clonedIndices cols = key := by
  simp [covered]

/-- Matching rows lie in both halves of an upquery for one point exactly if their
joined row is at the point. -/
theorem Upqueries.covered_halves_iff {upquery : Nat} {key : Key V} {left right : Row V}
    (point : (upqueries.miss upquery).missedKeys = [.equal key])
    (sized : key.length = (upqueries.miss upquery).columnIndices.length)
    (matched : config.Matches left right) :
    (∀ side, covered (upqueries.half upquery side).columnIndices
        (upqueries.half upquery side).missedKeys (JoinConfig.ofSide side left right) = true) ↔
      covered (upqueries.miss upquery).columnIndices (upqueries.miss upquery).missedKeys
        (config.generateRow left right) = true := by
  obtain ⟨columns, asked, halves⟩ :=
    JoinConfig.handleUpquery_point (upqueries.split upquery) point
  have columnsSized : key.length = columns.length :=
    sized.trans (by rw [← Row.length_clonedIndices (config.generateRow left right),
      JoinConfig.clonedIndices_generateRow matched asked, List.length_map])
  rw [point, covered_point, JoinConfig.clonedIndices_generateRow matched asked,
    map_eq_iff_halfKey columnsSized]
  refine forall_congr' fun side => ?_
  rw [(halves side).1, (halves side).2, covered_point, Row.clonedIndices, List.map_map]
  refine Eq.congr_left (List.map_congr_left fun source mem => ?_)
  obtain rfl : source.1 = side := of_decide_eq_true (List.mem_filter.mp mem).2
  rfl

/-- Replies to upqueries for one point are joined right if no row has a NULL in its
join columns. -/
theorem Orderly.of_point {key : Key V}
    (isKey : reply.replay.key = some (upqueries.miss reply.upquery).columnIndices)
    (fresh : state.replies reply.upquery reply.side = none)
    (exact_ : ExactReply upqueries tables reply.upquery reply.side reply.records)
    (inTurn : ∀ other ≠ reply.upquery,
      (upqueries.miss other).columnIndices = (upqueries.miss reply.upquery).columnIndices →
        (state.replies other .left = none ↔ state.replies other .right = none))
    (point : (upqueries.miss reply.upquery).missedKeys = [.equal key])
    (sized : key.length = (upqueries.miss reply.upquery).columnIndices.length)
    (noNull : ∀ row ∈ tables .left, hasNull (row.clonedIndices config.onLeft) = false) :
    Orderly upqueries tables state reply := by
  refine ⟨isKey, fresh, exact_, inTurn, fun left inLeft right inRight same => ?_⟩
  rw [and_iff_right (noNull left inLeft),
    ← upqueries.covered_halves_iff point sized ⟨same, noNull left inLeft⟩]
  constructor
  · rintro ⟨inHalf, alsoInHalf⟩ (_ | _)
    · exact inHalf
    · exact alsoInHalf
  · exact fun halves => ⟨halves .left, halves .right⟩

theorem handleReplayForGenerated_eq (left right : List (Row V)) :
    config.handleReplayForGenerated (left.map .positive) (right.map .positive) =
      .ok ((left.flatMap fun row => (right.filter fun other =>
        row.clonedIndices config.onLeft = other.clonedIndices config.onRight).map
          (config.generateRow row)).map .positive) := by
  induction left with
  | nil => rfl
  | cons row left ih =>
    rw [List.map_cons, JoinConfig.handleReplayForGenerated, ih, List.filter_map]
    simp
    rfl

/-- Two exact halves are joined to the rows that are wanted. -/
theorem Orderly.joined_halves (orderly : Orderly upqueries tables state reply)
    {left right : List (Record V)} (isLeft : ExactReply upqueries tables reply.upquery .left left)
    (isRight : ExactReply upqueries tables reply.upquery .right right) :
    ∃ rows : List (Row V), config.handleReplayForGenerated left right = .ok (rows.map .positive) ∧
        (rows : Multiset (Row V)) = wantedRows upqueries tables reply.upquery := by
  obtain ⟨left, rfl, isLeft⟩ := isLeft
  obtain ⟨right, rfl, isRight⟩ := isRight
  refine ⟨_, handleReplayForGenerated_eq left right, ?_⟩
  rw [← coe_bind, isLeft, bind_filter, wantedRows, JoinConfig.equiJoin, filter_bind]
  refine bind_congr fun row mem => ?_
  rw [← map_coe, ← filter_coe, isRight, filter_map,
    JoinConfig.partners, filter_filter, filter_filter]
  have agree := orderly.separate row mem
  split_ifs with inHalf
  · refine congrArg _ (filter_congr fun other mem => ?_)
    constructor
    · rintro ⟨same, alsoInHalf⟩
      obtain ⟨noNull, matched⟩ := (agree other mem same).mp ⟨inHalf, alsoInHalf⟩
      exact ⟨matched, same, noNull⟩
    · rintro ⟨matched, same, noNull⟩
      exact ⟨same, ((agree other mem same).mpr ⟨noNull, matched⟩).2⟩
  · refine (map_eq_zero.mpr (filter_eq_nil.mpr ?_)).symm
    rintro other mem ⟨matched, same, noNull⟩
    exact inHalf ((agree other mem same).mpr ⟨noNull, matched⟩).1

/-- What holds of the state between replies: every upquery is served, what waits
belongs to an upquery, and every reply received was exact. -/
structure Consistent (upqueries : Upqueries V config) (tables : Tables V) (state : Straddling V) :
    Prop where
  config_eq : state.join.toJoinConfig = config
  served : ∀ upquery, Served upqueries tables state upquery
  owned : ∀ columns side records,
    state.join.generatedColumnBuffer (columns, side) = some records →
      ∃ upquery, (upqueries.miss upquery).columnIndices = columns ∧
        state.replies upquery side = some records ∧
        state.replies upquery (otherSide side) = none
  exact_ : ∀ upquery side records, state.replies upquery side = some records →
    ExactReply upqueries tables upquery side records

theorem otherSide_ne (side : Side) : otherSide side ≠ side := by cases side <;> decide

theorem otherSide_otherSide (side : Side) : otherSide (otherSide side) = side := by
  cases side <;> rfl

theorem eq_or_eq_otherSide (one two : Side) : two = one ∨ two = otherSide one := by
  cases one <;> cases two <;> simp [otherSide]

/-- What waits in one place of the buffer is set. -/
def Join.withBuffer (join : Join V) (slot : List Nat × Side) (records : Option (List (Record V))) :
    Join V where
  toJoinConfig := join.toJoinConfig
  generatedColumnBuffer := Function.update join.generatedColumnBuffer slot records

/-- A reply to a straddled upquery is joined with what waits on the other side, or
waits itself. -/
theorem onInput_straddled {join : Join V} {side : Side} {batch : List (Record V)}
    {replay : ReplayContext V} {cols : List Nat} (isKey : replay.key = some cols)
    (unresolved : join.replayKeyCols (join.parent side) replay = none) :
    join.onInput (join.parent side) batch replay nodes states =
      match join.generatedColumnBuffer (cols, otherSide side) with
      | some other =>
        (join.handleReplayForGenerated (if side = .left then batch else other)
          (if side = .left then other else batch)).map fun results =>
            ({ results }, join.withBuffer (cols, otherSide side) none)
      | none => .ok ({}, join.withBuffer (cols, side) (some batch)) := by
  unfold Join.onInput
  rw [unresolved]
  cases side with
  | left =>
    simp only [isKey, Option.getD_some, JoinConfig.fromLeft_parent_left, if_true, otherSide]
    cases join.generatedColumnBuffer (cols, .right) <;> rfl
  | right =>
    simp only [isKey, Option.getD_some, JoinConfig.fromLeft_parent_right, Bool.false_eq_true,
      if_false, otherSide]
    cases join.generatedColumnBuffer (cols, .left) <;> rfl

variable {next : Straddling V} {upquery : Nat} {records : List (Record V)}

theorem Served.of_same (served : Served upqueries tables state upquery)
    (replies : next.replies upquery = state.replies upquery)
    (emitted : next.emitted upquery = state.emitted upquery)
    (buffer : ∀ side records, state.replies upquery side = some records →
      state.replies upquery (otherSide side) = none →
        next.join.generatedColumnBuffer ((upqueries.miss upquery).columnIndices, side) =
          state.join.generatedColumnBuffer ((upqueries.miss upquery).columnIndices, side)) :
    Served upqueries tables next upquery := by
  refine ⟨?_, fun side records here missing => ?_, ?_⟩
  · rw [replies, emitted]
    exact served.untouched
  · rw [replies] at here missing
    rw [buffer side records here missing]
    exact served.waiting side records here missing
  · rw [replies, emitted]
    exact served.joined

theorem Orderly.not_waiting (orderly : Orderly upqueries tables state reply) {other : Nat}
    (ne : other ≠ reply.upquery)
    (same : (upqueries.miss other).columnIndices = (upqueries.miss reply.upquery).columnIndices)
    {side : Side} (here : state.replies other side = some records) :
    state.replies other (otherSide side) ≠ none := by
  intro missing
  have both := orderly.inTurn other ne same
  cases side with
  | left => simp [here, show state.replies other .right = none from missing] at both
  | right => simp [here, show state.replies other .left = none from missing] at both

section

variable (inv : Consistent upqueries tables state) (orderly : Orderly upqueries tables state reply)

include inv orderly

/-- A step keeps the state consistent if it puts the reply into the buffer when
the other half is missing, and otherwise clears the buffer of the other half and
emits the rows of the upquery. -/
theorem Consistent.of_step (config_eq : next.join.toJoinConfig = config) (replies : next.replies =
      update state.replies reply.upquery (update (state.replies reply.upquery) reply.side (some
      reply.records))) (emitted : ∀ other ≠ reply.upquery, next.emitted other = state.emitted other)
    (served : Served upqueries tables next reply.upquery)
    (buffer : ∀ cols side, cols ≠ (upqueries.miss reply.upquery).columnIndices →
      next.join.generatedColumnBuffer (cols, side) = state.join.generatedColumnBuffer (cols, side))
    (kept : ∀ side records,
      next.join.generatedColumnBuffer ((upqueries.miss reply.upquery).columnIndices, side) =
      some records → next.replies reply.upquery side = some records ∧
      next.replies reply.upquery (otherSide side) = none) : Consistent upqueries tables next := by
  have others : ∀ other ≠ reply.upquery, next.replies other = state.replies other :=
    fun other ne => by rw [replies, update_of_ne ne]
  refine ⟨config_eq, fun other => ?_, fun cols side records held => ?_, ?_⟩
  · by_cases ne : other = reply.upquery
    · rwa [ne]
    · refine (inv.served other).of_same (others other ne) (emitted other ne) ?_
      intro side records here missing
      by_cases same : (upqueries.miss other).columnIndices =
          (upqueries.miss reply.upquery).columnIndices
      · exact absurd missing (orderly.not_waiting ne same here)
      · exact buffer _ side same
  · by_cases same : cols = (upqueries.miss reply.upquery).columnIndices
    · subst same
      exact ⟨reply.upquery, rfl, kept side records held⟩
    · rw [buffer cols side same] at held
      obtain ⟨other, onColumns, here, missing⟩ := inv.owned cols side records held
      have ne : other ≠ reply.upquery := by
        rintro rfl
        exact same onColumns.symm
      rw [← others other ne] at here missing
      exact ⟨other, onColumns, here, missing⟩
  · intro other side records here
    by_cases ne : other = reply.upquery
    · subst ne
      rw [replies, update_self] at here
      by_cases own : side = reply.side
      · subst own
        rw [update_self] at here
        obtain rfl := Option.some.inj here
        exact orderly.exact_
      · rw [update_of_ne own] at here
        exact inv.exact_ _ side records here
    · rw [others other ne] at here
      exact inv.exact_ other side records here

/-- What waits on the columns of a reply is the other half of its upquery. -/
theorem Consistent.own {side : Side}
    (held : state.join.generatedColumnBuffer
      ((upqueries.miss reply.upquery).columnIndices, side) = some records) :
    side = otherSide reply.side ∧ state.replies reply.upquery side = some records := by
  obtain ⟨other, same, here, missing⟩ := inv.owned _ side records held
  by_cases ne : other = reply.upquery
  · subst ne
    refine ⟨(eq_or_eq_otherSide reply.side side).resolve_left ?_, here⟩
    rintro rfl
    exact absurd (here.symm.trans orderly.fresh) (Option.some_ne_none _)
  · exact absurd missing (orderly.not_waiting ne same here)

/-- The two halves of an upquery are joined to its rows. -/
theorem Consistent.joined {other : List (Record V)}
    (second : state.replies reply.upquery (otherSide reply.side) = some other) :
    ∃ rows : List (Row V),
      config.handleReplayForGenerated (if reply.side = .left then reply.records else other)
          (if reply.side = .left then other else reply.records) = .ok (rows.map .positive) ∧
        (rows : Multiset (Row V)) = wantedRows upqueries tables reply.upquery := by
  have first := orderly.exact_
  have earlier := inv.exact_ _ _ other second
  cases isSide : reply.side with
  | left =>
    rw [isSide] at first earlier
    exact orderly.joined_halves first earlier
  | right =>
    rw [isSide] at first earlier
    exact orderly.joined_halves earlier first

/-- One reply keeps every upquery served. -/
theorem Consistent.step :
    ∃ output next, state.step nodes states reply = .ok (output, next) ∧
      Consistent upqueries tables next := by
  obtain ⟨⟨joinConfig, buffer⟩, replies, emitted⟩ := state
  obtain rfl : joinConfig = config := inv.config_eq
  have unresolved := (upqueries.straddles reply.upquery).replayKeyCols orderly.isKey reply.side
  have nothing : emitted reply.upquery = [] :=
    (inv.served reply.upquery).untouched ⟨reply.side, orderly.fresh⟩
  have received := @onInput_straddled V _ nodes states ⟨joinConfig, buffer⟩ reply.side reply.records
    reply.replay _ orderly.isKey unresolved
  cases second : replies reply.upquery (otherSide reply.side) with
  | none =>
    have empty : ∀ side, buffer ((upqueries.miss reply.upquery).columnIndices, side) = none := by
      intro side
      refine Option.eq_none_iff_forall_not_mem.mpr fun records held => ?_
      obtain ⟨rfl, here⟩ := inv.own orderly held
      cases second.symm.trans here
    simp only [empty] at received
    refine ⟨[], _, by simp only [Straddling.step, received]; rfl, ?_⟩
    have answered : ∀ side, side = reply.side ∨ replies reply.upquery side = none := by
      intro side
      rcases eq_or_eq_otherSide reply.side side with rfl | rfl
      · exact .inl rfl
      · exact .inr second
    refine inv.of_step orderly rfl rfl (fun other ne => update_of_ne ne _ _) ⟨?_, ?_, ?_⟩ ?_ ?_
    · simp [nothing]
    · intro side records here _
      rcases answered side with rfl | missing
      · simp_all [Join.withBuffer]
      · by_cases same : side = reply.side <;> simp_all [Join.withBuffer]
    · intro both
      have := both (otherSide reply.side)
      simp [otherSide_ne, second] at this
    · intro cols side ne
      simp [Join.withBuffer, ne]
    · intro side records held
      by_cases same : side = reply.side
      · subst same
        simp_all [Join.withBuffer, otherSide_ne]
      · simp [Join.withBuffer, same, empty] at held
  | some other =>
    have waits : buffer ((upqueries.miss reply.upquery).columnIndices, otherSide reply.side) =
        some other :=
      (inv.served reply.upquery).waiting (otherSide reply.side) other second
        (by rw [otherSide_otherSide]; exact orderly.fresh)
    obtain ⟨rows, joined, wanted⟩ := inv.joined orderly second
    simp only [waits, joined] at received
    refine ⟨rows.map .positive, _, by simp only [Straddling.step, received]; rfl, ?_⟩
    have answered : ∀ side, update (replies reply.upquery) reply.side
        (some reply.records) side ≠ none := by
      intro side
      rcases eq_or_eq_otherSide reply.side side with rfl | rfl
      · simp
      · simp [otherSide_ne, second]
    refine inv.of_step orderly rfl rfl (fun other ne => update_of_ne ne _ _) ⟨?_, ?_, ?_⟩ ?_ ?_
    · rintro ⟨side, missing⟩
      exact absurd (by simpa using missing) (answered side)
    · intro side records _ missing
      exact absurd (by simpa using missing) (answered (otherSide side))
    · exact fun _ => ⟨rows, by simp [nothing], wanted⟩
    · intro cols side ne
      simp [Join.withBuffer, ne]
    · intro side records held
      by_cases same : side = otherSide reply.side
      · simp [Join.withBuffer, same] at held
      · exact absurd (inv.own orderly (by simpa [Join.withBuffer, same] using held)).1 same

end

/-- **In every run whose replies are joined right, every upquery is served**: the
rows emitted for it are exactly those of the inner join that match its full key,
and a reply that is alone waits in the buffer. -/
theorem straddled_served {join : Join V} (upqueries : Upqueries V join.toJoinConfig)
    (tables : Tables V) (nodes : DomainNodes V) (states : StateMap V)
    (empty : ∀ slot, join.generatedColumnBuffer slot = none) {replies : List (Reply V)}
    (along : Along (Straddling.step nodes states) (Orderly upqueries tables)
      (Straddling.start join) replies) :
    ∃ trace final, run (Straddling.step nodes states) (Straddling.start join) replies =
        .ok (trace, final) ∧
      ∀ upquery, Served upqueries tables final upquery := by
  obtain ⟨trace, final, ran, consistent⟩ := run_along (Straddling.step nodes states)
    (Consistent upqueries tables) (fun _ _ consistent orderly => consistent.step orderly)
    ⟨rfl, fun upquery => ⟨fun _ => rfl, fun _ _ here => (by cases here),
        fun both => absurd rfl (both .left)⟩,
      fun columns side records held => by simp [Straddling.start, empty] at held,
      fun _ _ _ here => (by cases here)⟩ along
  exact ⟨trace, final, ran, consistent.served⟩

end

/-! ## Two upqueries at once -/

/-- `left.a, left.b, right.b` of an inner join on the first columns. -/
def pairJoin : Join Nat := { splitJoin with kind := .inner }

def pairTables : Tables Nat
  | .left => {[.value 1, .value 10], [.value 1, .value 11]}
  | .right => {[.value 1, .value 20], [.value 1, .value 21]}

/-- Upquery `0` asks for `b = 10` and `b = 20`, every other one for the rows with
one more. -/
def pairUpqueries : Upqueries Nat pairJoin.toJoinConfig where
  miss upquery := ⟨2, [1, 2], [.equal [.value (10 + min upquery 1), .value (20 + min upquery 1)]]⟩
  half upquery
    | .left => ⟨0, [1], [.equal [.value (10 + min upquery 1)]]⟩
    | .right => ⟨1, [1], [.equal [.value (20 + min upquery 1)]]⟩
  straddles _ := ⟨⟨2, by simp, rfl⟩, 1, by simp, rfl⟩
  split _ := rfl

def pairReply (upquery : Nat) (side : Side) : Reply Nat where
  upquery := upquery
  side := side
  records := match side with
    | .left => [.positive [.value 1, .value (10 + upquery)]]
    | .right => [.positive [.value 1, .value (20 + upquery)]]
  replay := .partial_ [1, 2] [] 0 0 0 false

/-- The second left reply overwrites the first, which is then lost: the rows of
the second upquery go to the first one, and the last reply waits for ever. -/
theorem pairReplies_mixed :
    ∃ trace final, run (Straddling.step .none fun _ => none) (Straddling.start pairJoin)
        [pairReply 0 .left, pairReply 1 .left, pairReply 0 .right, pairReply 1 .right] =
        .ok (trace, final) ∧
      final.emitted 0 = [.positive [.value 1, .value 11, .value 20]] ∧
      final.emitted 1 = [] ∧
      wantedRows pairUpqueries pairTables 0 = {[.value 1, .value 10, .value 20]} ∧
      wantedRows pairUpqueries pairTables 1 = {[.value 1, .value 11, .value 21]} :=
  ⟨_, _, rfl, rfl, rfl, by decide, by decide⟩

theorem straddled_served_pair :
    ∃ trace final, run (Straddling.step .none fun _ => none) (Straddling.start pairJoin)
        [pairReply 0 .left, pairReply 0 .right] = .ok (trace, final) ∧
      ∀ upquery, Served pairUpqueries pairTables final upquery := by
  refine straddled_served pairUpqueries pairTables .none _ (fun _ => rfl) ?_
  refine along_cons _ (.of_point rfl rfl ⟨[_], rfl, by decide⟩ (fun _ _ _ => Iff.rfl) rfl rfl
    (by decide)) rfl ?_
  refine along_cons _ (.of_point rfl rfl ⟨[_], rfl, by decide⟩ (fun other different _ => ?_) rfl
    rfl (by decide)) rfl trivial
  simp [Straddling.start, pairReply, show other ≠ 0 from different]

end ReadySet.Ops
