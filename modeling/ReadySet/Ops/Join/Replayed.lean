import ReadySet.Ops.Join.Straddled

/-!
Owns partial replays through a join whose key columns all resolve to the sending
parent: whether `on_input` records a miss for every record that it cannot match,
and otherwise emits exactly the rows of the join for the replayed keys.

Inner joins do. A left join emits the padded row of a left row without a partner
even if a key column comes from the right, where the row has a NULL. From the
right parent it also takes the replayed rows for new ones: a run that is all the
key has revokes padded rows that were never emitted, a key whose right rows it
cannot count is dropped without a miss, and no padded row is ever emitted.
-/

namespace ReadySet.Ops

open Data Library Dataflow JoinConfig List
open Multiset (mem_map mem_filter filter_eq_nil mem_bind filter_coe)

universe u

variable {V : Type u} {record : Record V}

/-! ## Key columns -/

namespace JoinConfig

variable {join : JoinConfig} {side : Side} {left right : Row V} {cols own : List Nat}

theorem clonedIndices_eq {row other : Row V}
    (resolved : cols.mapM (join.replayColumn (join.parent side)) = some own)
    (same : ∀ col ∈ cols, ∀ ownColumn, join.replayColumn (join.parent side) col = some ownColumn →
        row.at col = other.at ownColumn) : row.clonedIndices cols = other.clonedIndices own := by
  induction cols generalizing own with
  | nil =>
    obtain rfl : [] = own := by simpa using resolved
    rfl
  | cons col cols ih =>
    obtain ⟨first, here, rest, later, rfl⟩ : ∃ first,
        join.replayColumn (join.parent side) col = some first ∧ ∃ rest,
          cols.mapM (join.replayColumn (join.parent side)) = some rest ∧ first :: rest = own := by
      simpa [Option.bind_eq_some_iff] using resolved
    have tail := ih later fun other mem => same other (mem_cons_of_mem _ mem)
    rw [Row.clonedIndices, map_cons, same col mem_cons_self first here]
    exact congrArg (_ :: ·) tail

def AllLeft (join : JoinConfig) (columns : List Nat) : Prop :=
  ∀ column ∈ columns, ∃ parentColumn, join.emit[column]? = some (.left, parentColumn)

variable [LinearOrder V] {keys : List (KeyComparison V)}

theorem covered_generateRow (matched : join.Matches left right)
    (resolved : cols.mapM (join.replayColumn (join.parent side)) = some own) :
    covered cols keys (join.generateRow left right) = covered own keys (ofSide side left right) := by
  rw [covered, covered, clonedIndices_eq resolved fun _ _ _ here => at_generateRow matched here]

/-- Keys without a NULL, ranges included, take in the padded row of a left row with
such a key only if every key column is the left parent's. -/
theorem covered_generateNull
    (resolved : cols.mapM (join.replayColumn (join.parent .left)) = some own)
    (notNull : ∀ key ∈ keys, ∀ point : Key V, point.length = cols.length →
      key.contains point = true → hasNull point = false) :
    covered cols keys (join.generateNull left) = true ↔
      join.AllLeft cols ∧ covered own keys left = true := by
  by_cases allLeft : join.AllLeft cols
  · rw [and_iff_right allLeft, covered, covered, clonedIndices_eq resolved]
    intro col mem ownColumn here
    obtain ⟨parentColumn, source⟩ := allLeft col mem
    obtain rfl : parentColumn = ownColumn := by simpa [replayColumn, source, parent] using here
    simp [generateNull, Row.at, source]
  · refine iff_of_false (fun isCovered => ?_) fun both => allLeft both.1
    obtain ⟨key, mem, contains⟩ := any_eq_true.mp isCovered
    have noNull := notNull key mem _ (length_map _) contains
    refine allLeft fun col inColumns => ?_
    have notNone : ((join.generateNull left).at col).isNone = false :=
      any_eq_false.mp noNull _ (mem_map_of_mem inColumns) |> Bool.eq_false_iff.mpr
    cases source : join.emit[col]? with
    | none => simp [generateNull, Row.at, source] at notNone
    | some source' =>
      obtain ⟨_ | _, parentColumn⟩ := source'
      · exact ⟨parentColumn, rfl⟩
      · simp [generateNull, Row.at, source] at notNone

/-! ## The rows that a replayed row contributes -/

/-- The joined and padded rows of a left row, and the joined rows of a right row. -/
def contribution (join : JoinConfig) (tables : Tables V) : Side → Row V → Multiset (Row V)
  | .left, row =>
    (join.partners (tables .right) row).map (join.generateRow row) +
      if join.kind = .left ∧ join.partners (tables .right) row = 0 then {join.generateNull row} else 0
  | .right, row =>
    ((tables .left).filter fun leftRow => join.Matches leftRow row).map fun leftRow =>
      join.generateRow leftRow row

theorem joined_eq_bind (tables : Tables V) :
    join.joined tables = (tables .left).bind (join.contribution tables .left) := by
  refine counts_injective ?_
  rw [counts_joined_left, counts_bind]
  refine congrArg Multiset.sum (Multiset.map_congr rfl fun row _ => ?_)
  simp only [leftCounts, contribution]
  split_ifs <;> simp

theorem equiJoin_eq_bind (tables : Tables V) :
    join.equiJoin tables = (tables .right).bind (join.contribution tables .right) := by
  refine counts_injective ?_
  rw [counts_equiJoin_right, counts_bind]
  rfl

/-- A replayed row is joined with all its partners. -/
theorem values_joinRecord {tables : Tables V} {others : List (Row V)}
    (pos : record.isPositive = true)
    (found : (others : Multiset (Row V)) = keyMatches (tables (otherSide side))
      (join.onSide (otherSide side)) (record.value.clonedIndices (join.onSide side))) :
    (∀ emitted ∈ join.joinRecord (join.parent side) others record, emitted.isPositive = true) ∧
      ((join.joinRecord (join.parent side) others record).map Signed.value : Multiset (Row V)) =
        join.contribution tables side record.value := by
  cases side with
  | left =>
    have found : (others : Multiset (Row V)) = join.partners (tables .right) record.value := by
      rw [found, partners_eq_keyMatches]
      rfl
    rw [contribution, ← found, joinRecord]
    cases others with
    | nil => by_cases kind : join.kind = .left <;> simp [kind, pos, Signed.ofFlag]
    | cons row others => simp [pos, Signed.ofFlag, Function.comp_def]
  | right =>
    have found : (others : Multiset (Row V)) =
        (tables .left).filter fun leftRow => join.Matches leftRow record.value := by
      rw [found, filter_matches_eq_keyMatches]
      rfl
    rw [contribution, ← found, joinRecord]
    cases others with
    | nil => simp
    | cons row others => simp [pos, Signed.ofFlag, Function.comp_def]

end JoinConfig

/-! ## Replays -/

/-- **A partial replay whose key columns resolve to the sender**, with exactly its
rows for the replayed keys, points or ranges. Lookups find all rows of a key or
miss. -/
structure PartialReplay (V : Type u) [LinearOrder V] (side : Side) where
  join : Join V
  nodes : DomainNodes V
  states : StateMap V
  tables : Tables V
  context : ReplayContext V
  columns : List Nat
  /-- The sender's columns that the key columns resolve to. -/
  own : List Nat
  keys : List (KeyComparison V)
  rows : List (Row V)
  partial_ : ∃ shard replica tag unishard,
    context = .partial_ columns keys shard replica tag unishard
  resolved : columns.mapM (join.replayColumn (join.parent side)) = some own
  replayed : (rows : Multiset (Row V)) = (tables side).filter fun row => covered own keys row = true
  lookup : ∀ (from_ : Side) (key : Key V), key.length = join.on.length →
    ingredientLookup (join.parent from_) (join.onSide from_) key nodes states .strict = .ok .miss ∨
      ∃ found, ingredientLookup (join.parent from_) (join.onSide from_) key nodes states .strict =
          .ok (.ofRows found) ∧
        (found : Multiset (Row V)) = matching (tables from_) (join.onSide from_) key

namespace PartialReplay

variable [LinearOrder V] {side : Side} (replay : PartialReplay V side)
  {group : Key V × List (Record V)} {row emitted : Row V} {others : List (Row V)}

def Misses (from_ : Side) (key : Key V) : Prop :=
  ingredientLookup (replay.join.parent from_) (replay.join.onSide from_) key replay.nodes
    replay.states .strict = .ok .miss

/-- The rows that a replayed row matches cannot be looked up. -/
def Unmatched (key : Key V) : Prop :=
  hasNull key = false ∧ replay.Misses (otherSide side) key

/-- The operator skips a key: it cannot count its right rows. -/
def Skipped (key : Key V) : Prop :=
  (replay.join.kind = .left ∧ side = .right) ∧ replay.Misses .right key

def keyOf (row : Row V) : Key V := row.clonedIndices (replay.join.onSide side)

/-- The rows of the other parent that a key joins with. -/
def partnersOf (key : Key V) : Multiset (Row V) :=
  keyMatches (replay.tables (otherSide side)) (replay.join.onSide (otherSide side)) key

/-- The miss that covers a replayed row. -/
def missOf (row : Row V) : Miss V :=
  Miss.build (replay.join.parent (otherSide side)) (replay.join.onSide (otherSide side))
    (.recordColumns (replay.join.onSide side)) replay.context (some replay.own) row

def joinedRecords (group : Key V × List (Record V)) (others : List (Row V)) : List (Record V) :=
  group.2.flatMap (replay.join.joinRecord (replay.join.parent side) others)

/-- What one run of a replay comes to. -/
structure RunResult (group : Key V × List (Record V)) (result : ProcessingResult V) : Prop where
  skipped : replay.Skipped group.1 → result = {}
  unmatched : ¬ replay.Skipped group.1 → replay.Unmatched group.1 →
    result.results = [] ∧ result.misses = group.2.map fun record => replay.missOf record.value
  matched : ¬ replay.Skipped group.1 → ¬ replay.Unmatched group.1 →
    result.misses = [] ∧ ∃ others : List (Row V),
      (others : Multiset (Row V)) = replay.partnersOf group.1 ∧
      result.results = replay.joinedRecords group others ++
        runPadding replay.join.toJoinConfig replay.tables side group others

/-- One run of replayed records. -/
theorem onRun (length : group.1.length = replay.join.on.length) :
    ∃ result, replay.join.onRun (replay.join.parent side) replay.context (some replay.own)
        replay.nodes replay.states group = .ok result ∧ replay.RunResult group result := by
  have each (from_ : Side) : ∃ answer,
      ingredientLookup (replay.join.parent from_) (replay.join.onSide from_) group.1 replay.nodes
          replay.states .strict = .ok (answerOf answer) ∧
        (replay.Misses from_ group.1 ↔ answer = none) ∧ ∀ found, answer = some found →
          (found : Multiset (Row V)) =
            matching (replay.tables from_) (replay.join.onSide from_) group.1 := by
    rcases replay.lookup from_ group.1 length with missed | ⟨found, looked, contents⟩
    · exact ⟨none, missed, iff_of_true missed rfl, nofun⟩
    · refine ⟨some found, looked, iff_of_false (fun missed => ?_) nofun, fun _ same =>
        Option.some.inj same ▸ contents⟩
      exact absurd (looked.symm.trans missed) (by simp [IngredientLookupResult.ofRows])
  choose answers looked missed contents using each
  obtain ⟨result, ran, spec⟩ := @onRun_spec V _ replay.join.toJoinConfig replay.nodes replay.states
    side group replay.context (some replay.own) answers length looked
  refine ⟨result, ran, fun skipped => ?_, fun counted unmatched => ?_, fun counted matched => ?_⟩
  · rwa [if_pos ⟨skipped.1, (missed .right).mp skipped.2⟩] at spec
  · rwa [if_neg fun skips => counted ⟨skips.1, (missed .right).mpr skips.2⟩, unmatched.1,
      (missed _).mp unmatched.2] at spec
  · rw [if_neg fun skips => counted ⟨skips.1, (missed .right).mpr skips.2⟩] at spec
    have others : ∃ others : List (Row V), (others : Multiset (Row V)) = replay.partnersOf group.1 ∧
        (if hasNull group.1 then some [] else answers (otherSide side)) = some others := by
      cases nulls : hasNull group.1 with
      | true => exact ⟨[], by simp [partnersOf, keyMatches, nulls], rfl⟩
      | false =>
        obtain ⟨others, found⟩ := Option.ne_none_iff_exists'.mp fun missing =>
          matched ⟨nulls, (missed _).mpr missing⟩
        exact ⟨others, by simp [partnersOf, keyMatches, nulls, contents _ _ found], found⟩
    obtain ⟨others, found, isOthers⟩ := others
    rw [isOthers] at spec
    refine ⟨spec.1, others, found, ?_⟩
    rw [spec.2, joinedRecords, runPadding]
    split_ifs with counts
    · obtain ⟨rows, isRows⟩ := Option.ne_none_iff_exists'.mp fun missing =>
        counted ⟨counts, (missed .right).mpr missing⟩
      have count : rows.length = rightCount replay.join.toJoinConfig replay.tables group.1 := by
        rw [← Multiset.coe_card, contents .right rows isRows]
        rfl
      rw [isRows, Option.getD_some, count]
    · rfl

/-! ## The rows of the replayed keys -/

def groups : List (Key V × List (Record V)) :=
  runs (replay.join.joinKey (replay.join.parent side)) (replay.rows.map .positive)

/-- The rows with a replayed key. -/
def wanted (contents : Multiset (Row V)) : Multiset (Row V) :=
  contents.filter fun row => covered replay.columns replay.keys row = true

def contributed : Multiset (Row V) :=
  (replay.rows : Multiset (Row V)).bind (replay.join.contribution replay.tables side)

/-- The positive rows that are emitted. -/
def positives (result : ProcessingResult V) : Multiset (Row V) :=
  (result.results.filter Signed.isPositive).map Signed.value

noncomputable def matched (row : Row V) : Multiset (Row V) :=
  open Classical in
  if replay.Unmatched (replay.keyOf row) then 0 else replay.join.contribution replay.tables side row

/-- **What a replay is for.** A row whose matching rows cannot be looked up is covered
by a miss, and the others are not dropped. If all can be matched, what is emitted are
positive records of exactly the rows of the join whose key columns hold a replayed
key. -/
@[mk_iff]
structure Answered (result : ProcessingResult V) : Prop where
  missed : ∀ row ∈ replay.rows, replay.Unmatched (replay.keyOf row) →
    replay.missOf row ∈ result.misses
  kept : (replay.rows : Multiset (Row V)).bind replay.matched ≤ positives result
  emitted : (∀ row ∈ replay.rows, ¬ replay.Unmatched (replay.keyOf row)) →
    (∀ record ∈ result.results, record.isPositive = true) ∧
      (result.results.map Signed.value : Multiset (Row V)) =
        replay.wanted (replay.join.joined replay.tables)

/-- **The replays that are answered.** A skipped key has no left rows. If all rows can
be matched, then from the left of a left join the padded row of a left row without a
partner has a replayed key just if the row itself has, and from the right no run is all
that a key with left rows has, and no padded row has a replayed key. -/
def Replayable : Prop :=
  (∀ row ∈ replay.rows, replay.Skipped (replay.keyOf row) →
      ¬ replay.Unmatched (replay.keyOf row) ∧ replay.partnersOf (replay.keyOf row) = 0) ∧
    ((∀ row ∈ replay.rows, ¬ replay.Unmatched (replay.keyOf row)) →
      match replay.join.kind, side with
      | .inner, _ => True
      | .left, .left =>
        ∀ row ∈ replay.tables .left, replay.join.partners (replay.tables .right) row = 0 →
          (covered replay.columns replay.keys (replay.join.generateNull row) = true ↔
            covered replay.own replay.keys row = true)
      | .left, .right =>
        (∀ group ∈ replay.groups, replay.partnersOf group.1 = 0 ∨
            group.2.length ≠ rightCount replay.join.toJoinConfig replay.tables group.1) ∧
          ∀ row ∈ replay.tables .left, replay.join.partners (replay.tables .right) row = 0 →
            ¬ covered replay.columns replay.keys (replay.join.generateNull row) = true)

variable {replay}

theorem covered_contribution (mem : emitted ∈ replay.join.contribution replay.tables side row) :
    covered replay.columns replay.keys emitted = covered replay.own replay.keys row ∨
      (replay.join.kind = .left ∧ side = .left ∧
          replay.join.partners (replay.tables .right) row = 0) ∧
        emitted = replay.join.generateNull row := by
  cases side with
  | left =>
    rcases Multiset.mem_add.mp mem with joined | padded
    · obtain ⟨right, partner, rfl⟩ := mem_map.mp joined
      exact .inl (covered_generateRow (mem_filter.mp partner).2 replay.resolved)
    · split_ifs at padded with unmatched
      · exact .inr ⟨⟨unmatched.1, rfl, unmatched.2⟩, Multiset.mem_singleton.mp padded⟩
      · exact absurd padded (Multiset.notMem_zero _)
  | right =>
    obtain ⟨left, partner, rfl⟩ := mem_map.mp mem
    exact .inl (covered_generateRow (mem_filter.mp partner).2 replay.resolved)

theorem covered_of_mem (mem : row ∈ replay.rows) : covered replay.own replay.keys row = true := by
  have mem : row ∈ (replay.rows : Multiset (Row V)) := mem
  rw [replay.replayed] at mem
  exact (mem_filter.mp mem).2

variable (replay)

/-- The rows that the sender's other rows contribute. -/
def uncontributed : Multiset (Row V) :=
  ((replay.tables side).filter fun row => ¬ covered replay.own replay.keys row = true).bind
    (replay.join.contribution replay.tables side)

theorem wanted_bind : replay.wanted ((replay.tables side).bind
      (replay.join.contribution replay.tables side)) =
    replay.wanted replay.contributed + replay.wanted replay.uncontributed := by
  rw [contributed, uncontributed, replay.replayed, wanted, wanted, wanted, ← Multiset.filter_add,
    ← Multiset.add_bind, Multiset.filter_add_not]

theorem wanted_uncontributed_iff : replay.wanted replay.uncontributed = 0 ↔
    (replay.join.kind = .left ∧ side = .left → ∀ row ∈ replay.tables .left,
      replay.join.partners (replay.tables .right) row = 0 →
        covered replay.columns replay.keys (replay.join.generateNull row) = true →
          covered replay.own replay.keys row = true) := by
  rw [wanted, filter_eq_nil]
  constructor
  · rintro none ⟨kind, rfl⟩ row mem unmatched padded
    by_contra outside
    refine none _ (mem_bind.mpr ⟨row, mem_filter.mpr ⟨mem, outside⟩, ?_⟩) padded
    simp [contribution, kind, unmatched]
  · intro accounted emitted mem isCovered
    obtain ⟨row, outside, contributed⟩ := mem_bind.mp mem
    obtain ⟨inTable, uncovered⟩ := mem_filter.mp outside
    rcases covered_contribution contributed with same | ⟨⟨kind, rfl, none⟩, rfl⟩
    · exact uncovered (same ▸ isCovered)
    · exact uncovered (accounted ⟨kind, rfl⟩ row inTable none isCovered)

theorem wanted_contributed_iff : replay.wanted replay.contributed = replay.contributed ↔
    (replay.join.kind = .left ∧ side = .left → ∀ row ∈ replay.tables .left,
      replay.join.partners (replay.tables .right) row = 0 →
        covered replay.own replay.keys row = true →
          covered replay.columns replay.keys (replay.join.generateNull row) = true) := by
  rw [wanted, Multiset.filter_eq_self]
  constructor
  · rintro all ⟨kind, rfl⟩ row mem none isCovered
    refine all _ (mem_bind.mpr ⟨row, ?_, by simp [contribution, kind, none]⟩)
    rw [replay.replayed]
    exact mem_filter.mpr ⟨mem, isCovered⟩
  · intro accounted emitted mem
    obtain ⟨row, here, contributed⟩ := mem_bind.mp mem
    rcases covered_contribution contributed with same | ⟨⟨kind, rfl, none⟩, rfl⟩
    · rw [same, covered_of_mem here]
    · rw [replay.replayed] at here
      obtain ⟨inTable, isCovered⟩ := mem_filter.mp here
      exact accounted ⟨kind, rfl⟩ row inTable none isCovered

/-- The rows wanted are those contributed if no other row is wanted, and all that are
contributed are: a wanted row and an unwanted one cannot stand for each other. -/
theorem wanted_add_eq_iff : replay.contributed =
      replay.wanted replay.contributed + replay.wanted replay.uncontributed ↔
    (replay.join.kind = .left ∧ side = .left → ∀ row ∈ replay.tables .left,
      replay.join.partners (replay.tables .right) row = 0 →
        (covered replay.columns replay.keys (replay.join.generateNull row) = true ↔
          covered replay.own replay.keys row = true)) := by
  constructor
  case mpr =>
    intro accounted
    rw [replay.wanted_contributed_iff.mpr fun both row mem none =>
        (accounted both row mem none).mpr,
      replay.wanted_uncontributed_iff.mpr fun both row mem none => (accounted both row mem none).mp,
      add_zero]
  intro same
  have all : replay.wanted replay.contributed = replay.contributed := by
    rw [wanted, Multiset.filter_eq_self]
    intro emitted mem
    rw [same] at mem
    rcases Multiset.mem_add.mp mem with wanted | wanted <;> exact (mem_filter.mp wanted).2
  rw [all, left_eq_add] at same
  exact fun both row mem none => ⟨replay.wanted_uncontributed_iff.mp same both row mem none,
    replay.wanted_contributed_iff.mp all both row mem none⟩

/-- For keys without a NULL: all key columns are the left parent's, or every replayed
row has a partner. -/
theorem padded_accounted_iff {replay : PartialReplay V .left}
    (notNull : ∀ key ∈ replay.keys, ∀ point : Key V, point.length = replay.columns.length →
      key.contains point = true → hasNull point = false) :
    (∀ row ∈ replay.tables .left, replay.join.partners (replay.tables .right) row = 0 →
        (covered replay.columns replay.keys (replay.join.generateNull row) = true ↔
          covered replay.own replay.keys row = true)) ↔
      replay.join.AllLeft replay.columns ∨
        ∀ row ∈ replay.rows, replay.join.partners (replay.tables .right) row ≠ 0 := by
  simp only [covered_generateNull replay.resolved notNull]
  constructor
  · refine fun accounted => or_iff_not_imp_left.mpr fun others row mem none => others ?_
    have inTable : row ∈ replay.tables .left :=
      Multiset.mem_of_le (replay.replayed ▸ Multiset.filter_le _ _) mem
    exact ((accounted row inTable none).mpr (covered_of_mem mem)).1
  · rintro (allLeft | some) row mem none
    · exact and_iff_right allLeft
    · refine iff_of_false (fun both => ?_) fun isCovered => ?_
      all_goals refine some row (Multiset.mem_coe.mp ?_) none
      all_goals rw [replay.replayed]
      · exact mem_filter.mpr ⟨mem, both.2⟩
      · exact mem_filter.mpr ⟨mem, isCovered⟩

theorem wanted_joined : replay.wanted (replay.join.joined replay.tables) =
    replay.wanted replay.contributed + replay.wanted replay.uncontributed +
      if replay.join.kind = .left ∧ side = .right then
        replay.wanted (replay.join.padding replay.tables) else 0 := by
  rw [← replay.wanted_bind]
  cases side with
  | left => simp [joined_eq_bind]
  | right =>
    rw [← equiJoin_eq_bind, joined]
    cases replay.join.kind <;> simp [wanted]

/-! ## What the runs come to -/

variable {replay}

section

variable (mem : group ∈ replay.groups)

include mem

theorem mem_groups (inGroup : record ∈ group.2) :
    record.isPositive = true ∧ record.value ∈ replay.rows ∧ replay.keyOf record.value = group.1 := by
  obtain ⟨row, inRows, rfl⟩ := mem_map.mp (mem_of_mem_runs _ mem inGroup)
  have keyed := runs_key_of_mem _ mem inGroup
  rw [joinKey, fromKey_parent] at keyed
  exact ⟨rfl, inRows, keyed⟩

theorem exists_mem_group : ∃ record ∈ group.2,
    record.value ∈ replay.rows ∧ replay.keyOf record.value = group.1 := by
  obtain ⟨record, inGroup⟩ := exists_mem_of_ne_nil _ (runs_spec _ _ mem).1
  exact ⟨record, inGroup, (mem_groups mem inGroup).2⟩

theorem runPadding_eq :
    runPadding replay.join.toJoinConfig replay.tables side group others =
      if (replay.join.kind = .left ∧ side = .right) ∧
          group.2.length = rightCount replay.join.toJoinConfig replay.tables group.1 then
        others.map fun other => .negative (replay.join.generateNull other) else [] := by
  by_cases counts : replay.join.kind = .left ∧ side = .right
  · have counted : rightCount replay.join.toJoinConfig replay.tables group.1 ≠ 0 := by
      obtain ⟨-, rfl⟩ := counts
      obtain ⟨record, -, inRows, keyed⟩ := exists_mem_group mem
      have inTable : record.value ∈ replay.tables .right :=
        Multiset.mem_of_le (replay.replayed ▸ Multiset.filter_le _ _) inRows
      exact (Multiset.card_pos_iff_exists_mem.mpr
        ⟨record.value, mem_filter.mpr ⟨inTable, keyed⟩⟩).ne'
    have diff : rowCountDiff group.2 = group.2.length := by
      rw [rowCountDiff, map_congr_left fun record inGroup =>
        if_pos (mem_groups mem inGroup).1]
      simp
    rw [runPadding, if_pos counts, nullRows, if_neg fun none => counted none.1]
    refine if_congr ?_ rfl rfl
    simp only [counts, true_and]
    omega
  · rw [runPadding, if_neg counts, if_neg fun both => counts both.1]

end

theorem exists_group (mem : row ∈ replay.rows) :
    ∃ group ∈ replay.groups, .positive row ∈ group.2 := by
  have inBatch : Signed.positive row ∈ (replay.groups.map Prod.snd).flatten := by
    rw [groups, runs_flatten]
    exact mem_map_of_mem mem
  obtain ⟨list, inRuns, here⟩ := mem_flatten.mp inBatch
  obtain ⟨group, inGroups, rfl⟩ := mem_map.mp inRuns
  exact ⟨group, inGroups, here⟩

theorem sum_groups (f : Row V → Multiset (Row V)) :
    (replay.groups.map fun group => (group.2.map fun record => f record.value).sum).sum =
      (replay.rows : Multiset (Row V)).bind f := by
  have flat := congrArg (fun batch : List (Record V) => (batch.map fun record => f record.value).sum)
    (runs_flatten (replay.join.joinKey (replay.join.parent side)) (replay.rows.map .positive))
  simp only [map_flatten, sum_flatten, map_map] at flat
  exact flat

variable {part : Key V × List (Record V) → ProcessingResult V} {result : ProcessingResult V}
  (parts : ∀ group ∈ replay.groups, replay.RunResult group (part group))

include parts

/-- Every unmatched row is missed just if none is skipped. -/
theorem missed_iff
    (misses : result.misses = replay.groups.flatMap fun group => (part group).misses) :
    (∀ row ∈ replay.rows, replay.Unmatched (replay.keyOf row) →
        replay.missOf row ∈ result.misses) ↔
      ∀ row ∈ replay.rows, replay.Unmatched (replay.keyOf row) →
        ¬ replay.Skipped (replay.keyOf row) := by
  rw [misses]
  refine forall₂_congr fun row mem => imp_congr_right fun unmatched => ?_
  constructor
  · intro missed skipped
    obtain ⟨group, inGroups, here⟩ := mem_flatMap.mp missed
    by_cases skips : replay.Skipped group.1
    · rw [(parts group inGroups).skipped skips] at here
      exact absurd here not_mem_nil
    · by_cases misses : replay.Unmatched group.1
      · rw [((parts group inGroups).unmatched skips misses).2] at here
        obtain ⟨record, inGroup, same⟩ := mem_map.mp here
        obtain rfl : record.value = row := congrArg Miss.record same
        rw [(mem_groups inGroups inGroup).2.2] at skipped
        exact skips skipped
      · rw [((parts group inGroups).matched skips misses).1] at here
        exact absurd here not_mem_nil
  · intro counted
    obtain ⟨group, inGroups, here⟩ := exists_group mem
    rw [show replay.keyOf row = group.1 from (mem_groups inGroups here).2.2] at unmatched counted
    refine mem_flatMap.mpr ⟨group, inGroups, ?_⟩
    rw [((parts group inGroups).unmatched counted unmatched).2]
    exact mem_map_of_mem here

/-- What the run of one join key emits. -/
theorem part_spec (mem : group ∈ replay.groups) (counted : ¬ replay.Skipped group.1) :
    positives (part group) = (group.2.map fun record => replay.matched record.value).sum ∧
      (¬ replay.Unmatched group.1 → ((∀ record ∈ (part group).results, record.isPositive = true) ↔
        (replay.join.kind = .left ∧ side = .right → replay.partnersOf group.1 = 0 ∨
          group.2.length ≠ rightCount replay.join.toJoinConfig replay.tables group.1))) := by
  by_cases unmatched : replay.Unmatched group.1
  · refine ⟨?_, fun matched => absurd unmatched matched⟩
    rw [positives, ((parts group mem).unmatched counted unmatched).1, eq_comm]
    refine sum_eq_zero fun contribution inSum => ?_
    obtain ⟨record, inGroup, rfl⟩ := mem_map.mp inSum
    exact if_pos ((mem_groups mem inGroup).2.2 ▸ unmatched)
  obtain ⟨-, others, found, emitted⟩ := (parts group mem).matched counted unmatched
  rw [runPadding_eq mem] at emitted
  have each : ∀ record ∈ group.2, _ := fun record inGroup =>
    values_joinRecord (mem_groups mem inGroup).1
      (found.trans (by rw [← (mem_groups mem inGroup).2.2]; rfl))
  have pos : ∀ record ∈ replay.joinedRecords group others, record.isPositive = true := by
    intro record inResults
    obtain ⟨source, inGroup, emitted⟩ := mem_flatMap.mp inResults
    exact (each source inGroup).1 record emitted
  constructor
  · rw [positives, emitted, filter_append, filter_eq_self.mpr pos,
      filter_eq_nil_iff.mpr, append_nil, joinedRecords, map_flatMap, coe_flatMap]
    · refine congrArg sum (map_congr_left fun record inGroup => ?_)
      rw [matched, (mem_groups mem inGroup).2.2, if_neg unmatched]
      exact (each record inGroup).2
    · intro record inPadding
      split_ifs at inPadding
      · obtain ⟨other, -, rfl⟩ := mem_map.mp inPadding
        exact Bool.noConfusion
      · exact absurd inPadding not_mem_nil
  · intro _
    rw [emitted, forall_mem_append, and_iff_right pos, ← found]
    split_ifs with whole
    · cases others <;> simp [whole]
    · simpa using fun kind isRight => .inr fun same => whole ⟨⟨kind, isRight⟩, same⟩

theorem positives_part_le (group : Key V × List (Record V)) (mem : group ∈ replay.groups) :
    positives (part group) ≤ (group.2.map fun record => replay.matched record.value).sum := by
  by_cases skipped : replay.Skipped group.1
  · rw [(parts group mem).skipped skipped]
    exact Multiset.zero_le _
  · exact (part_spec parts mem skipped).1.le

variable (results : result.results = replay.groups.flatMap fun group => (part group).results)

include results

omit parts in
theorem positives_eq_sum :
    positives result = (replay.groups.map fun group => positives (part group)).sum := by
  rw [positives, results, filter_flatMap, map_flatMap, coe_flatMap]
  rfl

theorem positives_le : positives result ≤ (replay.rows : Multiset (Row V)).bind replay.matched := by
  rw [positives_eq_sum results, ← replay.sum_groups]
  exact sum_le_sum (positives_part_le parts)

/-- No matched row is lost just if the skipped ones have no partners. -/
theorem positives_eq_iff :
    positives result = (replay.rows : Multiset (Row V)).bind replay.matched ↔
      ∀ row ∈ replay.rows, replay.Skipped (replay.keyOf row) → ¬ replay.Unmatched (replay.keyOf row) →
        replay.partnersOf (replay.keyOf row) = 0 := by
  have joins : ∀ row, replay.Skipped (replay.keyOf row) → (replay.matched row = 0 ↔
      (¬ replay.Unmatched (replay.keyOf row) → replay.partnersOf (replay.keyOf row) = 0)) := by
    classical
    rintro row ⟨⟨-, rfl⟩, -⟩
    rw [matched, ite_eq_left_iff, contribution, filter_matches_eq_keyMatches, Multiset.map_eq_zero]
    rfl
  rw [positives_eq_sum results, ← replay.sum_groups, sum_eq_sum_iff (positives_part_le parts)]
  constructor
  · intro same row mem skipped
    obtain ⟨group, inGroups, here⟩ := exists_group mem
    have keyed : replay.keyOf row = group.1 := (mem_groups inGroups here).2.2
    have nothing := same group inGroups
    rw [(parts group inGroups).skipped (keyed ▸ skipped), eq_comm] at nothing
    exact (joins row skipped).mp (sum_eq_zero_iff.mp nothing _ (mem_map.mpr ⟨_, here, rfl⟩))
  · intro none group mem
    by_cases skipped : replay.Skipped group.1
    · rw [(parts group mem).skipped skipped, eq_comm]
      refine sum_eq_zero (forall_mem_map.mpr fun record inGroup => ?_)
      obtain ⟨-, inRows, keyed⟩ := mem_groups mem inGroup
      exact (joins _ (keyed ▸ skipped)).mpr (none _ inRows (keyed ▸ skipped))
    · exact (part_spec parts mem skipped).1

theorem positive_iff (matchable : ∀ row ∈ replay.rows, ¬ replay.Unmatched (replay.keyOf row))
    (none : ∀ row ∈ replay.rows, replay.Skipped (replay.keyOf row) →
      replay.partnersOf (replay.keyOf row) = 0) :
    (∀ record ∈ result.results, record.isPositive = true) ↔
      ∀ group ∈ replay.groups, replay.join.kind = .left ∧ side = .right →
        replay.partnersOf group.1 = 0 ∨
          group.2.length ≠ rightCount replay.join.toJoinConfig replay.tables group.1 := by
  rw [results, forall_mem_flatMap]
  refine forall₂_congr fun group mem => ?_
  obtain ⟨record, -, inRows, keyed⟩ := exists_mem_group mem
  by_cases skipped : replay.Skipped group.1
  · rw [(parts group mem).skipped skipped]
    exact iff_of_true (fun _ absent => absurd absent not_mem_nil) fun _ =>
      .inl (keyed ▸ none _ inRows (keyed.symm ▸ skipped))
  · exact (part_spec parts mem skipped).2 (keyed ▸ matchable _ inRows)

end PartialReplay

/-- **A partial replay through a join is answered exactly when** the join is inner, or
the rows it cannot match are missed and its padded rows are all accounted for. -/
theorem onInput_replay_iff [LinearOrder V] {side : Side} (replay : PartialReplay V side) :
    (∃ result, replay.join.onInput (replay.join.parent side) (replay.rows.map .positive)
        replay.context replay.nodes replay.states = .ok (result, replay.join) ∧
          replay.Answered result) ↔
      replay.Replayable := by
  have resolved : replay.join.replayKeyCols (replay.join.parent side) replay.context =
      some (some replay.own) := by
    obtain ⟨_, _, _, _, same⟩ := replay.partial_
    rw [same]
    exact congrArg (Option.map some) replay.resolved
  have each : ∀ group ∈ replay.groups, _ := fun group member => replay.onRun (runs_length member)
  obtain ⟨part, result, received, ran, results, misses⟩ := exists_onInput resolved each
  have parts : ∀ group ∈ replay.groups, replay.RunResult group (part group) :=
    fun group member => (ran group member).2
  have answered : replay.Answered result ↔ replay.Replayable := by
    rw [PartialReplay.answered_iff, PartialReplay.missed_iff parts misses,
      (PartialReplay.positives_le parts results).ge_iff_eq,
      PartialReplay.positives_eq_iff parts results, ← and_assoc]
    have skips : (∀ row ∈ replay.rows, replay.Unmatched (replay.keyOf row) →
          ¬ replay.Skipped (replay.keyOf row)) ∧
        (∀ row ∈ replay.rows, replay.Skipped (replay.keyOf row) →
          ¬ replay.Unmatched (replay.keyOf row) → replay.partnersOf (replay.keyOf row) = 0) ↔
        ∀ row ∈ replay.rows, replay.Skipped (replay.keyOf row) →
          ¬ replay.Unmatched (replay.keyOf row) ∧ replay.partnersOf (replay.keyOf row) = 0 := by
      grind
    rw [skips]
    refine and_congr_right fun skipped => imp_congr_right fun matchable => ?_
    have all : PartialReplay.positives result = replay.contributed := by
      rw [(PartialReplay.positives_eq_iff parts results).mpr fun row member skips _ =>
        (skipped row member skips).2]
      exact Multiset.bind_congr fun row member => if_neg (matchable row member)
    have values : (∀ record ∈ result.results, record.isPositive = true) →
        (result.results.map Signed.value : Multiset (Row V)) = replay.contributed := fun positive => by
      rw [← all, PartialReplay.positives, List.filter_eq_self.mpr positive]
    rw [and_congr_right fun positive => by rw [values positive, replay.wanted_joined],
      PartialReplay.positive_iff parts results matchable fun row member skips =>
        (skipped row member skips).2]
    by_cases counts : replay.join.kind = .left ∧ side = .right
    · rw [if_pos counts,
        replay.wanted_contributed_iff.mpr fun both => absurd (counts.2.symm.trans both.2) (by decide),
        replay.wanted_uncontributed_iff.mpr fun both => absurd (counts.2.symm.trans both.2) (by decide),
        add_zero, left_eq_add]
      obtain ⟨kind, rfl⟩ := counts
      rw [kind]
      refine and_congr (forall₂_congr fun _ _ => by simp) ?_
      simp only [PartialReplay.wanted, JoinConfig.padding, Multiset.filter_eq_nil, Multiset.mem_map,
        Multiset.mem_filter]
      exact ⟨fun none row member unmatched => none _ ⟨row, ⟨member, unmatched⟩, rfl⟩,
        fun none _ ⟨row, ⟨member, unmatched⟩, same⟩ => same ▸ none row member unmatched⟩
    · rw [if_neg counts, add_zero, replay.wanted_add_eq_iff]
      cases kind : replay.join.kind <;> cases side <;> simp_all
  rw [← answered]
  refine ⟨fun ⟨other, receivedOther, holds⟩ => ?_, fun holds => ⟨result, received, holds⟩⟩
  obtain rfl : result = other :=
    congrArg Prod.fst (Except.ok.inj (received.symm.trans receivedOther))
  exact holds

/-! ## All right rows of a key, replayed at once -/

def allRows : PartialReplay Nat .right where
  join := splitJoin
  nodes := .none
  states := splitStates
  tables := splitAfter
  context := .partial_ [2] [.equal [.value 7], .equal [.value 5]] 0 0 0 false
  columns := [2]
  own := [1]
  keys := [.equal [.value 7], .equal [.value 5]]
  rows := [[.value 1, .value 7], [.value 1, .value 5]]
  partial_ := ⟨0, 0, 0, false, rfl⟩
  resolved := rfl
  replayed := by decide
  lookup
    | .left, _, _ => .inr ⟨_, rfl, (Multiset.filter_coe _ _).symm⟩
    | .right, _, _ => .inr ⟨_, rfl, (Multiset.filter_coe _ _).symm⟩

/-- The padded row of key 1 is revoked, which was never emitted: the right parent
already has the rows. -/
theorem allRows_revokes_padding :
    ∃ result, splitJoin.onInput (splitJoin.parent .right) (allRows.rows.map .positive)
          allRows.context .none splitStates = .ok (result, splitJoin) ∧
      result.results = [.positive [.value 1, .value 10, .value 7],
        .positive [.value 1, .value 10, .value 5], .negative [.value 1, .value 10, .none]] ∧
      ¬ allRows.Answered result := by
  refine ⟨_, rfl, rfl, fun answered => ?_⟩
  have positive := (answered.emitted fun _ _ unmatched => nomatch unmatched.2).1
  exact absurd (positive (.negative [.value 1, .value 10, .none])
    (List.mem_of_getLast? rfl)) Bool.noConfusion

end ReadySet.Ops
