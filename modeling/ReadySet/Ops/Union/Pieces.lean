import ReadySet.Ops.Union.Ledger

/-!
Owns partial replays through a union in `UnionAll` mode: that the operator's
buffered pieces represent the ledger, what each message does to both, and what
follows for whole runs in which updates and pieces of all parents interleave.

The operator reads the key of a buffered row from the replay's output columns
although the row is still a parent's row, takes a row for the first key that
contains it, and orders replays by a comparison that is none on points mixed
with ranges. `Readable` says when none of these matters.
-/

namespace ReadySet.Ops.Union

open Data Library Dataflow List

universe u

variable {V : Type u} {pieces : ReplayPieces V} {parent : LocalNodeIndex}

/-! ## Projection -/

section

variable (emit : List (LocalNodeIndex × List Nat))

/-- A union of these parents that keeps duplicates. -/
structure UnionAll (union : Union V) : Prop where
  emits : union.emit = .project emit
  keepsDuplicates : union.bagUnionState = none
  requires : union.required = emit.length

variable {emit} {union : Union V}

/-- The operator that `new` creates. -/
theorem eq_of_new (created : Union.new emit .unionAll = .ok union) :
    union = { emit := .project emit, bagUnionState := none, replayKey := [], replayPieces := []
              required := emit.length, fullWaitState := .none } := by
  rw [Union.new] at created
  split at created
  · contradiction
  · split at created
    · contradiction
    · exact (Except.ok.inj created).symm

theorem UnionAll.onInput (unionAll : UnionAll emit union) (hashing : Hashing V)
    {sender : LocalNodeIndex} (isParent : sender ∈ parents emit) (records : List (Record V)) :
    union.onInput hashing sender records = .ok (project (emitOf emit sender) records, union) := by
  rw [Union.onInput, unionAll.emits]
  simp [lookup_emit isParent, unionAll.keepsDuplicates]

theorem UnionAll.releasePieces (unionAll : UnionAll emit union) (hashing : Hashing V)
    (pieces : ReplayPieces V) (fromParents : ∀ piece ∈ pieces, piece.1 ∈ parents emit) :
    releasePieces hashing union pieces =
      .ok (pieces.flatMap fun piece => project (emitOf emit piece.1) piece.2, union) := by
  induction pieces with
  | nil => rfl
  | cons piece pieces ih =>
    have later := ih fun other mem => fromParents other (by simp [mem])
    rw [Union.releasePieces, unionAll.onInput hashing (fromParents piece (by simp))]
    simp [later]

theorem UnionAll.replayKeyFrom (unionAll : UnionAll emit union) (sender : LocalNodeIndex) :
    union.replayKeyFrom sender = sender := by
  simp [Union.replayKeyFrom, isShardMerger, unionAll.emits]

@[simp] theorem project_append (cols : List Nat) (first second : List (Record V)) :
    project cols (first ++ second) = project cols first ++ project cols second := by
  simp [project]

def parentColumns (columns keyCols : List Nat) : List Nat :=
  keyCols.map fun column => columns.getD column 0

section

variable {cols keyCols : List Nat} (inOutput : ∀ col ∈ keyCols, col < cols.length)

include inOutput

theorem clonedIndices_clonedIndices (row : Row V) :
    Row.clonedIndices (row.clonedIndices cols) keyCols =
      row.clonedIndices (parentColumns cols keyCols) := by
  simp only [Row.clonedIndices, parentColumns, map_map]
  apply map_congr_left
  intro col mem
  have bound := inOutput col mem
  simp [Row.at, bound]

theorem emitColumns_eq : emitColumns cols keyCols = .ok (parentColumns cols keyCols) := by
  have found : keyCols.mapM (cols[·]?) = some (parentColumns cols keyCols) := by
    induction keyCols with
    | nil => rfl
    | cons col rest ih =>
      have bound := inOutput col (by simp)
      have later := ih fun other mem => inOutput other (by simp [mem])
      rw [mapM_cons, later]
      simp [parentColumns, bound]
  simp [emitColumns, found]

end

end

/-! ## Representation -/

section

variable [LinearOrder V] (emit : List (LocalNodeIndex × List Nat)) (keyCols : Tag → List Nat)

/-- Buffered pieces hold what the ledger says the parents have contributed. -/
structure Buffered (ledger : Ledger V) (replay : BufferedReplayKey V)
    (pieces : ReplayPieces V) : Prop where
  nodup : (pieces.map Prod.fst).Nodup
  fromParents : ∀ piece ∈ pieces, piece.1 ∈ parents emit
  holds : ∀ piece ∈ pieces, ∃ contributed, ledger piece.1 replay = some contributed ∧
    (project (emitOf emit piece.1) piece.2).Perm contributed
  all : ∀ parent ∈ parents emit, (ledger parent replay).isSome → parent ∈ pieces.map Prod.fst

/-- The operator's key columns for a tag, for every parent. -/
def KnowsTag (union : Union V) (tag : Tag) : Prop :=
  ∀ parent ∈ parents emit, union.replayKey.lookup (tag, parent) =
    some (parentColumns (emitOf emit parent) (keyCols tag))

/-- The operator's state represents the ledger. -/
structure Represents (union : Union V) (ledger : Ledger V) : Prop where
  unionAll : UnionAll emit union
  noFull : union.fullWaitState = .none
  replayKeys : ∀ tag, KnowsTag emit keyCols union tag ∨
    ∀ parent, union.replayKey.lookup (tag, parent) = none
  sorted : SortedMap.Sorted BufferedReplayKey.cmp union.replayPieces
  knows : ∀ entry ∈ union.replayPieces, KnowsTag emit keyCols union entry.1.tag
  pending : ∀ entry ∈ union.replayPieces, Pending emit ledger entry.1
  buffered : ∀ entry ∈ union.replayPieces, Buffered emit ledger entry.1 entry.2
  present : ∀ replay, Pending emit ledger replay → ∃ pieces, (replay, pieces) ∈ union.replayPieces

variable {emit keyCols} {ledger : Ledger V} {replay : BufferedReplayKey V}

section

omit [LinearOrder V]

section

variable (buffered : Buffered emit ledger replay pieces)

include buffered

theorem Buffered.congr {other : Ledger V}
    (same : ∀ parent, other parent replay = ledger parent replay) :
    Buffered emit other replay pieces where
  nodup := buffered.nodup
  fromParents := buffered.fromParents
  holds piece mem := by rw [same]; exact buffered.holds piece mem
  all parent isParent sent := buffered.all parent isParent (by rwa [← same])

theorem Buffered.subperm : (pieces.map Prod.fst).Subperm (parents emit) := by
  refine buffered.nodup.subperm fun parent mem => ?_
  obtain ⟨piece, inPieces, rfl⟩ := mem_map.mp mem
  exact buffered.fromParents piece inPieces

theorem Buffered.length_eq_iff (nodup : (parents emit).Nodup) :
    pieces.length = emit.length ↔ complete emit ledger replay = true := by
  have senders := buffered.subperm
  have lengths : (parents emit).length = emit.length := by simp [parents]
  rw [complete, all_eq_true]
  constructor
  · intro full parent isParent
    have everyone : (pieces.map Prod.fst).Perm (parents emit) :=
      senders.perm_of_length_le (by simp [full, lengths])
    obtain ⟨piece, mem, rfl⟩ := mem_map.mp (everyone.mem_iff.mpr isParent)
    obtain ⟨contributed, sent, _⟩ := buffered.holds piece mem
    simp [sent]
  · intro sent
    have everyone : parents emit ⊆ pieces.map Prod.fst :=
      fun parent isParent => buffered.all parent isParent (sent parent isParent)
    have atLeast := (nodup.subperm everyone).length_le
    have atMost := senders.length_le
    simp only [length_map] at atLeast atMost
    omega

theorem Buffered.perm_contributions (nodup : (parents emit).Nodup)
    (full : complete emit ledger replay = true) :
    (pieces.flatMap fun piece => project (emitOf emit piece.1) piece.2).Perm
      (contributions emit ledger replay) := by
  have everyone : (pieces.map Prod.fst).Perm (parents emit) := by
    apply buffered.subperm.perm_of_length_le
    have lengths := (buffered.length_eq_iff nodup).mpr full
    simp [parents, lengths]
  have pieceByPiece : (pieces.flatMap fun piece => project (emitOf emit piece.1) piece.2).Perm
      (pieces.flatMap fun piece => (ledger piece.1 replay).getD []) := by
    apply Perm.flatMap_left
    intro piece mem
    obtain ⟨contributed, sent, same⟩ := buffered.holds piece mem
    simpa [sent] using same
  apply pieceByPiece.trans
  have byParent := everyone.flatMap_right fun parent => (ledger parent replay).getD []
  simpa [contributions, flatMap_map] using byParent

end

end

end

/-! ## Updates -/

section

variable [LinearOrder V] {emit : List (LocalNodeIndex × List Nat)} {keyCols : Tag → List Nat}
  {ledger : Ledger V} {union : Union V} {sender : LocalNodeIndex}
  {entry : BufferedReplayKey V × ReplayPieces V}

/-- The key columns of every replay are output columns. -/
def InOutput (emit : List (LocalNodeIndex × List Nat)) (keyCols : Tag → List Nat) : Prop :=
  ∀ tag, ∀ column ∈ keyCols tag, ∀ entry ∈ emit, column < entry.2.length

section

variable (inOutput : InOutput emit keyCols) (isParent : sender ∈ parents emit)

include inOutput isParent

theorem InOutput.bound (tag : Tag) : ∀ col ∈ keyCols tag, col < (emitOf emit sender).length :=
  fun col mem => inOutput tag col mem _ (emitOf_mem isParent)

theorem project_matchingRecords (replay : BufferedReplayKey V) (batch : List (Record V)) :
    project (emitOf emit sender)
        (matchingRecords (parentColumns (emitOf emit sender) (keyCols replay.tag))
          replay.key batch) =
      selected keyCols replay (project (emitOf emit sender) batch) := by
  have cols := inOutput.bound isParent replay.tag
  simp only [project, selected, filter_map, Function.comp_def, inKey, Signed.value_map,
    clonedIndices_clonedIndices cols]
  rfl

end

/-- The pieces of one replay after an update. -/
def absorbed (emit : List (LocalNodeIndex × List Nat)) (keyCols : Tag → List Nat)
    (sender : LocalNodeIndex) (batch : List (Record V))
    (entry : BufferedReplayKey V × ReplayPieces V) : BufferedReplayKey V × ReplayPieces V :=
  (entry.1, entry.2.map fun piece =>
    if piece.1 = sender then
      (piece.1, piece.2 ++ matchingRecords
        (parentColumns (emitOf emit sender) (keyCols entry.1.tag)) entry.1.key batch)
    else piece)

omit [LinearOrder V] in
theorem lookup_eq_none_iff : pieces.lookup parent = none ↔ parent ∉ pieces.map Prod.fst := by
  rw [List.lookup_eq_none_iff, List.mem_map]
  constructor
  · rintro absent ⟨piece, mem, rfl⟩
    simpa using absent piece mem
  · intro absent piece mem
    simp only [bne_iff_ne]
    rintro rfl
    exact absent ⟨piece, mem, rfl⟩

theorem absorbPiece_eq (represents : Represents emit keyCols union ledger)
    (isParent : sender ∈ parents emit) {batch : List (Record V)}
    (mem : entry ∈ union.replayPieces) :
    union.absorbPiece sender batch entry = .ok (absorbed emit keyCols sender batch entry) := by
  obtain ⟨replay, pieces⟩ := entry
  obtain ⟨⟨parent, isOther, sent⟩, _⟩ := represents.pending _ mem
  have inPieces := (represents.buffered _ mem).all parent isOther sent
  have nonempty : pieces.isEmpty = false := by
    cases pieces with
    | nil => simp at inPieces
    | cons => rfl
  simp only [absorbPiece, nonempty, Bool.false_eq_true, if_false]
  by_cases sentBySender : pieces.lookup sender = none
  · -- No piece of the sender: the batch will be part of the piece to come.
    have unchanged : absorbed emit keyCols sender batch (replay, pieces) = (replay, pieces) := by
      have absent := lookup_eq_none_iff.mp sentBySender
      simp only [absorbed, Prod.mk.injEq, true_and]
      refine (map_congr_left fun piece inPieces => ?_).trans (map_id pieces)
      rw [if_neg, id]
      rintro rfl
      exact absent (mem_map_of_mem inPieces)
    rw [if_pos sentBySender, unchanged]
  · rw [if_neg sentBySender, represents.unionAll.replayKeyFrom,
      represents.knows _ mem sender isParent]
    refine congrArg (fun pieces => Except.ok (replay, pieces)) ?_
    simp

omit [LinearOrder V] in
theorem map_fst_ite (pieces : ReplayPieces V) (extra : List (Record V)) : (pieces.map fun piece =>
      if piece.1 = sender then (piece.1, piece.2 ++ extra) else piece).map Prod.fst =
      pieces.map Prod.fst := by
  rw [map_map]
  apply map_congr_left
  intro piece _
  by_cases same : piece.1 = sender <;> simp [same]

theorem Buffered.absorb (inOutput : InOutput emit keyCols) (isParent : sender ∈ parents emit)
    (batch : List (Record V)) (buffered : Buffered emit ledger entry.1 entry.2) :
    Buffered emit (ledger.follow emit keyCols sender batch) entry.1
      (absorbed emit keyCols sender batch entry).2 where
  nodup := by
    rw [absorbed, map_fst_ite]
    exact buffered.nodup
  fromParents := by
    intro piece mem
    obtain ⟨original, inPieces, rfl⟩ := mem_map.mp mem
    split <;> exact buffered.fromParents original inPieces
  holds := by
    intro piece mem
    obtain ⟨original, inPieces, rfl⟩ := mem_map.mp mem
    obtain ⟨contributed, sent, same⟩ := buffered.holds original inPieces
    by_cases own : original.1 = sender
    · rw [own] at sent same
      refine ⟨contributed ++ selected keyCols entry.1 (project (emitOf emit sender) batch), ?_, ?_⟩
      · simp [Ledger.follow, own, sent]
      · simp only [own, if_true, project_append]
        rw [project_matchingRecords inOutput isParent]
        exact same.append_right _
    · refine ⟨contributed, ?_, ?_⟩
      · simp [Ledger.follow, own, sent]
      · simpa [own] using same
  all := by
    intro parent isOther sent
    rw [isSome_follow] at sent
    rw [absorbed, map_fst_ite]
    exact buffered.all parent isOther sent

/-- An update is added to the pieces that its rows belong to. -/
theorem onUpdate_spec (hashing : Hashing V) (inOutput : InOutput emit keyCols)
    (represents : Represents emit keyCols union ledger) (isParent : sender ∈ parents emit)
    (batch : List (Record V)) :
    ∃ next, union.onUpdate hashing sender batch =
        .ok (.regular { results := project (emitOf emit sender) batch }, next) ∧
      Represents emit keyCols next (ledger.follow emit keyCols sender batch) := by
  set next : Union V := { union with
    replayPieces := union.replayPieces.map (absorbed emit keyCols sender batch) } with nextEq
  have nextAll : UnionAll emit next :=
    ⟨represents.unionAll.emits, represents.unionAll.keepsDuplicates, represents.unionAll.requires⟩
  refine ⟨next, ?_, ?_⟩
  · have noAbsorb : union.absorbsForFull sender = false := by
      simp [absorbsForFull, represents.noFull]
    rw [onUpdate, noAbsorb, if_neg Bool.false_ne_true]
    by_cases empty : union.replayPieces = []
    · have same : next = union := by
        cases union
        simp_all
      rw [if_pos (by simp [empty]), represents.unionAll.onInput hashing isParent, same]
      rfl
    · have absorbs : union.replayPieces.mapM (union.absorbPiece sender batch) =
          .ok (union.replayPieces.map (absorbed emit keyCols sender batch)) :=
        mapM_ok fun entry mem => absorbPiece_eq represents isParent mem
      rw [if_neg (by simpa using empty), absorbs]
      have forwarded := nextAll.onInput hashing isParent batch
      simp only [nextEq] at forwarded
      simp [forwarded, nextEq]
  · have pendingSame : ∀ replay, Pending emit (ledger.follow emit keyCols sender batch) replay ↔
        Pending emit ledger replay := by
      simp [Pending]
    exact
      { unionAll := nextAll
        noFull := represents.noFull
        replayKeys := represents.replayKeys
        sorted := by
          rw [SortedMap.Sorted, pairwise_map]
          exact represents.sorted
        knows := by
          intro entry mem
          obtain ⟨original, inPieces, rfl⟩ := mem_map.mp mem
          exact represents.knows original inPieces
        pending := by
          intro entry mem
          obtain ⟨original, inPieces, rfl⟩ := mem_map.mp mem
          exact (pendingSame original.1).mpr (represents.pending original inPieces)
        buffered := by
          intro entry mem
          obtain ⟨original, inPieces, rfl⟩ := mem_map.mp mem
          exact (represents.buffered original inPieces).absorb inOutput isParent batch
        present := by
          intro replay isPending
          obtain ⟨pieces, mem⟩ := represents.present replay ((pendingSame replay).mp isPending)
          exact ⟨_, mem_map_of_mem mem⟩ }

end

/-! ## Pieces -/

section

variable [LinearOrder V] {emit : List (LocalNodeIndex × List Nat)} {keyCols : Tag → List Nat}
  {ledger : Ledger V} {union : Union V} {sender : LocalNodeIndex}

/-- The key columns that the first piece of a tag adds. -/
def learnedKeys (emit : List (LocalNodeIndex × List Nat)) (keyCols : Tag → List Nat)
    (tag : Tag) : List ((Tag × Nat) × List Nat) :=
  emit.map fun entry => ((tag, entry.1), parentColumns entry.2 (keyCols tag))

theorem lookup_learnedKeys (tag other : Tag) (parent : LocalNodeIndex) :
    (learnedKeys emit keyCols tag).lookup (other, parent) =
      if other = tag then
        (emit.lookup parent).map (parentColumns · (keyCols tag))
      else none := by
  induction emit with
  | nil => simp [learnedKeys]
  | cons entry emit ih =>
    rw [learnedKeys] at ih
    rw [learnedKeys, map_cons, lookup_cons, lookup_cons, ih]
    by_cases sameTag : other = tag
    · subst sameTag
      by_cases sameParent : parent = entry.1
      · simp [sameParent]
      · have otherKey : ((other, parent) == (other, entry.1)) = false := by simp [sameParent]
        have otherParent : (parent == entry.1) = false := by simp [sameParent]
        simp [otherKey, otherParent]
    · have otherKey : ((other, parent) == (tag, entry.1)) = false := by simp [sameTag]
      simp [sameTag, otherKey]

/-- The first piece of a tag tells its columns in every parent. -/
theorem learnReplayKey_spec (inOutput : InOutput emit keyCols)
    (represents : Represents emit keyCols union ledger) (isParent : sender ∈ parents emit)
    {tag : Tag} :
    ∃ replayKey, union.learnReplayKey sender tag (keyCols tag) = .ok replayKey ∧
      Represents emit keyCols { union with replayKey } ledger ∧
      KnowsTag emit keyCols { union with replayKey } tag := by
  rw [learnReplayKey, represents.unionAll.replayKeyFrom]
  rcases represents.replayKeys tag with known | unknown
  · refine ⟨union.replayKey, ?_, represents, known⟩
    rw [known sender isParent]
    rfl
  · have learned : (emit.mapM fun entry => do
        let cols ← emitColumns entry.2 (keyCols tag)
        return ((tag, entry.1), cols) : ReadySetResult _) = .ok (learnedKeys emit keyCols tag) :=
      mapM_ok fun entry mem => by
        rw [emitColumns_eq fun col inKey => inOutput tag col inKey entry mem]
        rfl
    have knowsNow : KnowsTag emit keyCols
        { union with replayKey := learnedKeys emit keyCols tag ++ union.replayKey } tag := by
      intro parent isOther
      rw [lookup_append, lookup_learnedKeys, if_pos rfl, lookup_emit isOther]
      rfl
    have keepsOther : ∀ other, other ≠ tag → KnowsTag emit keyCols union other →
        KnowsTag emit keyCols
          { union with replayKey := learnedKeys emit keyCols tag ++ union.replayKey } other := by
      intro other ne known parent isOther
      rw [lookup_append, lookup_learnedKeys, if_neg ne]
      exact known parent isOther
    refine ⟨learnedKeys emit keyCols tag ++ union.replayKey, ?_, ?_, ?_⟩
    · rw [unknown sender, represents.unionAll.emits]
      simp only [lookup_emit isParent]
      rw [learned]
      rfl
    · exact
        { unionAll := ⟨represents.unionAll.emits, represents.unionAll.keepsDuplicates,
            represents.unionAll.requires⟩
          noFull := represents.noFull
          replayKeys := fun other => by
            by_cases same : other = tag
            · subst same
              exact .inl knowsNow
            · refine (represents.replayKeys other).imp (fun known => ?_) (fun unknown => ?_)
              · exact keepsOther other same known
              · intro parent
                rw [lookup_append, lookup_learnedKeys, if_neg same]
                exact unknown parent
          sorted := represents.sorted
          knows := fun entry mem => by
            by_cases same : entry.1.tag = tag
            · rw [same]
              exact knowsNow
            · exact keepsOther entry.1.tag same (represents.knows entry mem)
          pending := represents.pending
          buffered := represents.buffered
          present := represents.present }
    · exact knowsNow

variable {replay : BufferedReplayKey V} {after : Ledger V}

omit [LinearOrder V] in
theorem Buffered.add
    {taken contributed : List (Record V)} (buffered : Buffered emit ledger replay pieces)
    (isParent : sender ∈ parents emit) (missing : ledger sender replay = none)
    (sent : after sender replay = some contributed)
    (others : ∀ parent, parent ≠ sender → after parent replay = ledger parent replay)
    (same : (project (emitOf emit sender) taken).Perm contributed) :
    Buffered emit after replay (pieces ++ [(sender, taken)]) := by
  have notSender : ∀ piece ∈ pieces, piece.1 ≠ sender := by
    rintro piece mem rfl
    obtain ⟨_, found, _⟩ := buffered.holds piece mem
    rw [missing] at found
    contradiction
  refine ⟨?_, ?_, ?_, ?_⟩
  · rw [map_append, nodup_append]
    refine ⟨buffered.nodup, by simp, ?_⟩
    intro parent mem other isSender
    obtain ⟨piece, inPieces, rfl⟩ := mem_map.mp mem
    obtain rfl : other = sender := by simpa using isSender
    exact notSender piece inPieces
  · intro piece mem
    rcases mem_append.mp mem with old | new
    · exact buffered.fromParents piece old
    · obtain rfl : piece = (sender, taken) := by simpa using new
      exact isParent
  · intro piece mem
    rcases mem_append.mp mem with old | new
    · rw [others piece.1 (notSender piece old)]
      exact buffered.holds piece old
    · obtain rfl : piece = (sender, taken) := by simpa using new
      exact ⟨contributed, sent, same⟩
  · intro parent isOther isSent
    by_cases own : parent = sender
    · simp [own]
    · rw [others parent own] at isSent
      rw [map_append]
      exact mem_append_left _ (buffered.all parent isOther isSent)

variable {keys : BufferedReplayKey V → Prop}

section

variable (represents : Represents emit keyCols union ledger)
  (ordered : OrderedOn BufferedReplayKey.cmp keys) (isKey : keys replay)
  (inKeys : ∀ entry ∈ union.replayPieces, keys entry.1)

include represents ordered isKey inKeys

section

variable (others : ∀ other, other ≠ replay → ∀ parent, after parent other = ledger parent other)

include others

omit ordered isKey inKeys in
/-- What the buffers hold for the other replays stays as it was. -/
theorem Represents.replaced {stored} (held : ReplayPieces V → Prop)
    (sorted : SortedMap.Sorted BufferedReplayKey.cmp stored)
    (mem : ∀ {entry}, entry ∈ stored ↔ entry.1 = replay ∧ held entry.2 ∨
      entry.1 ≠ replay ∧ entry ∈ union.replayPieces)
    (here : ∀ pieces, held pieces → KnowsTag emit keyCols union replay.tag ∧
      Pending emit after replay ∧ Buffered emit after replay pieces)
    (present : Pending emit after replay → ∃ pieces, held pieces) :
    Represents emit keyCols { union with replayPieces := stored } after where
  unionAll := ⟨represents.unionAll.emits, represents.unionAll.keepsDuplicates,
    represents.unionAll.requires⟩
  noFull := represents.noFull
  replayKeys := represents.replayKeys
  sorted := sorted
  knows := by
    rintro ⟨other, pieces⟩ inStored
    rcases mem.mp inStored with ⟨rfl, isHeld⟩ | ⟨_, inPieces⟩
    · exact (here pieces isHeld).1
    · exact represents.knows _ inPieces
  pending := by
    rintro ⟨other, pieces⟩ inStored
    rcases mem.mp inStored with ⟨rfl, isHeld⟩ | ⟨ne, inPieces⟩
    · exact (here pieces isHeld).2.1
    · exact (pending_congr (others other ne)).mpr (represents.pending _ inPieces)
  buffered := by
    rintro ⟨other, pieces⟩ inStored
    rcases mem.mp inStored with ⟨rfl, isHeld⟩ | ⟨ne, inPieces⟩
    · exact (here pieces isHeld).2.2
    · exact (represents.buffered _ inPieces).congr (others other ne)
  present := by
    intro other isPending
    by_cases same : other = replay
    · subst same
      obtain ⟨pieces, isHeld⟩ := present isPending
      exact ⟨pieces, mem.mpr (.inl ⟨rfl, isHeld⟩)⟩
    · obtain ⟨pieces, inPieces⟩ :=
        represents.present other ((pending_congr (others other same)).mp isPending)
      exact ⟨pieces, mem.mpr (.inr ⟨same, inPieces⟩)⟩

theorem Represents.erase (full : complete emit after replay = true) :
    Represents emit keyCols { union with
      replayPieces := SortedMap.erase BufferedReplayKey.cmp replay union.replayPieces } after := by
  refine represents.replaced others (fun _ => False) (SortedMap.erase_sorted represents.sorted replay)
    ?_ (fun _ => False.elim) fun isPending => ?_
  · intro entry
    rw [SortedMap.mem_erase ordered isKey inKeys represents.sorted, and_false, false_or]
  · rw [Pending, full] at isPending
    simp at isPending

theorem Represents.insert
    (knows : KnowsTag emit keyCols union replay.tag) (isPending : Pending emit after replay)
    (buffered : Buffered emit after replay pieces) :
    Represents emit keyCols { union with
      replayPieces := SortedMap.insert BufferedReplayKey.cmp replay pieces union.replayPieces }
      after := by
  refine represents.replaced others (· = pieces)
    (SortedMap.insert_sorted ordered isKey inKeys represents.sorted pieces) ?_ ?_
    fun _ => ⟨pieces, rfl⟩
  · intro entry
    rw [SortedMap.mem_insert ordered isKey inKeys represents.sorted, Prod.ext_iff]
  · rintro _ rfl
    exact ⟨knows, isPending, buffered⟩

end

theorem Represents.find (isParent : sender ∈ parents emit) (missing : ledger sender replay = none) :
    Buffered emit ledger replay
      ((SortedMap.find? BufferedReplayKey.cmp replay union.replayPieces).getD []) := by
  cases found : SortedMap.find? BufferedReplayKey.cmp replay union.replayPieces with
  | some pieces =>
    have mem := (SortedMap.find?_eq_some ordered isKey inKeys represents.sorted).mp found
    exact represents.buffered _ mem
  | none =>
    have absent := (SortedMap.find?_eq_none ordered isKey inKeys represents.sorted).mp found
    have notPending : ¬ Pending emit ledger replay := by
      intro isPending
      obtain ⟨pieces, mem⟩ := represents.present replay isPending
      exact absent _ mem rfl
    have nobody : ∀ parent ∈ parents emit, ¬ (ledger parent replay).isSome := by
      intro parent isOther sent
      exact notPending ⟨⟨parent, isOther, sent⟩, not_complete_of_none isParent missing⟩
    exact
      { nodup := nodup_nil
        fromParents := by simp
        holds := by simp
        all := fun parent isOther sent => absurd sent (nobody parent isOther) }

end

end

/-! ## The keys of one piece -/

section

variable [LinearOrder V] (emit : List (LocalNodeIndex × List Nat)) (keyCols : Tag → List Nat)

/-- A piece as the replay protocol has it: it comes from a parent, and answers
each of its keys for the first time. -/
structure FirstAnswer (ledger : Ledger V) (sender : LocalNodeIndex) (request : Request V) :
    Prop where
  isParent : sender ∈ parents emit
  keyed : keyCols request.tag ≠ []
  distinct : request.keys.Nodup
  valid : ∀ key ∈ request.keys, key.isValidRange = true
  first : ∀ replay ∈ request.replays, ledger sender replay = none

/-- The operator's reading of a piece is the intended one: the output columns
of the replay say the same of a parent's row as of the output row, no row lies
in two keys of the piece, and the replays in play are ordered. -/
structure Readable (ledger : Ledger V) (sender : LocalNodeIndex) (rows : List (Record V))
    (request : Request V) : Prop where
  aligned : ∀ record ∈ rows, ∀ key ∈ request.keys,
    inKey (keyCols request.tag) key record =
      inKey (keyCols request.tag) key (record.map fun row => row.clonedIndices (emitOf emit sender))
  disjoint : ∀ record ∈ rows, ∀ first ∈ request.keys, ∀ second ∈ request.keys,
    inKey (keyCols request.tag) first record → inKey (keyCols request.tag) second record →
      first = second
  ordered : OrderedOn BufferedReplayKey.cmp fun replay =>
    Pending emit ledger replay ∨ replay ∈ request.replays

/-- The rows of a piece in the order in which the operator groups them. -/
def grouped (keyCols : List Nat) (rows : List (Record V)) : List (Record V) :=
  stableSort Key.cmp (fun record : Record V => record.value.clonedIndices keyCols) rows

/-- What working off the first keys of a piece amounts to. -/
structure Working (ledger : Ledger V) (sender : LocalNodeIndex) (rows : List (Record V))
    (request : Request V) (done : List (KeyComparison V)) (state : PieceState V) : Prop where
  represents : Represents emit keyCols state.union
    (ledger.receive emit keyCols sender rows (done.map request.replay))
  knows : KnowsTag emit keyCols state.union request.tag
  remaining : state.rowsByKey = (grouped (keyCols request.tag) rows).filter fun record =>
    done.all fun key => !inKey (keyCols request.tag) key record
  released : state.released = done.filter fun key =>
    complete emit (ledger.receive emit keyCols sender rows request.replays) (request.replay key)
  captured : state.captured = done.filter fun key =>
    !complete emit (ledger.receive emit keyCols sender rows request.replays) (request.replay key)
  rows : state.rows.Perm (state.released.flatMap fun key =>
    contributions emit (ledger.receive emit keyCols sender rows request.replays)
      (request.replay key))

variable {emit keyCols} {ledger : Ledger V} {sender : LocalNodeIndex}
  {rows : List (Record V)} {request : Request V} {done rest : List (KeyComparison V)}
  {key : KeyComparison V} {state : PieceState V}

/-- The rows taken for a key are the ones it contains: earlier keys of the
piece have not taken any of them. -/
theorem project_taken_perm (readable : Readable emit keyCols ledger sender rows request)
    (split : request.keys = done ++ key :: rest) (fresh : key ∉ done) :
    (project (emitOf emit sender) (((grouped (keyCols request.tag) rows).filter fun record =>
        done.all fun key => !inKey (keyCols request.tag) key record).filter
          (inKey (keyCols request.tag) key))).Perm
      (selected keyCols (request.replay key) (project (emitOf emit sender) rows)) := by
  have sortedPerm : (grouped (keyCols request.tag) rows).Perm rows := stableSort_perm _ _ _
  have inRequest : key ∈ request.keys := by simp [split]
  have notEarlier : ∀ record ∈ rows, (inKey (keyCols request.tag) key record &&
      done.all fun key => !inKey (keyCols request.tag) key record) =
        inKey (keyCols request.tag) key record := by
    intro record mem
    rw [Bool.and_eq_left_iff_imp, all_eq_true]
    intro isTaken earlier isEarlier
    rw [Bool.not_eq_true', Bool.eq_false_iff]
    intro inEarlier
    have same := readable.disjoint record mem earlier (by simp [split, isEarlier])
      key inRequest inEarlier isTaken
    exact fresh (same ▸ isEarlier)
  have output : selected keyCols (request.replay key) (project (emitOf emit sender) rows) =
      project (emitOf emit sender) (rows.filter (inKey (keyCols request.tag) key)) := by
    simp only [selected, project, filter_map]
    congr 1
    apply filter_congr
    intro record mem
    exact (readable.aligned record mem key inRequest).symm
  rw [output, filter_filter, filter_congr fun record mem =>
    notEarlier record (sortedPerm.mem_iff.mp mem)]
  exact (sortedPerm.filter _).map _

theorem receive_of_mem {replays : List (BufferedReplayKey V)} {replay : BufferedReplayKey V}
    (mem : replay ∈ replays) :
    ledger.receive emit keyCols sender rows replays parent replay =
      if parent = sender then some (selected keyCols replay (project (emitOf emit sender) rows))
      else ledger parent replay := by
  simp [Ledger.receive, mem]

theorem not_mem_done (answer : FirstAnswer emit keyCols ledger sender request)
    (split : request.keys = done ++ key :: rest) : key ∉ done := by
  have nodup := answer.distinct
  rw [split, nodup_append] at nodup
  intro mem
  exact nodup.2.2 key mem key (by simp) rfl

def withTaken (keyCols : Tag → List Nat) (sender : LocalNodeIndex) (request : Request V)
    (state : PieceState V) (key : KeyComparison V) : ReplayPieces V :=
  state.union.piecesOf (request.replay key) ++
    [(sender, state.rowsByKey.filter (inKey (keyCols request.tag) key))]

section

variable (working : Working emit keyCols ledger sender rows request done state)
  (answer : FirstAnswer emit keyCols ledger sender request)
  (readable : Readable emit keyCols ledger sender rows request)
  (split : request.keys = done ++ key :: rest)

include working

theorem Working.next_remaining :
    state.rowsByKey.filter (fun record => !inKey (keyCols request.tag) key record) =
      (grouped (keyCols request.tag) rows).filter fun record =>
        (done ++ [key]).all fun key => !inKey (keyCols request.tag) key record := by
  rw [working.remaining]
  simp [Bool.and_comm]

include split

theorem Working.inPlay : ∀ entry ∈ state.union.replayPieces,
    Pending emit ledger entry.1 ∨ entry.1 ∈ request.replays := by
  intro entry mem
  by_cases isDone : entry.1 ∈ done.map request.replay
  · rw [Request.replays, split, map_append]
    exact .inr (mem_append_left _ isDone)
  · exact .inl ((pending_congr fun parent => receive_of_not_mem isDone).mp
      (working.represents.pending entry mem))

include answer readable

theorem Working.unanswered :
    ledger.receive emit keyCols sender rows (done.map request.replay) sender
        (request.replay key) = none ∧
      Buffered emit (ledger.receive emit keyCols sender rows (done.map request.replay))
        (request.replay key) (state.union.piecesOf (request.replay key)) := by
  have inRequest : request.replay key ∈ request.replays := mem_map_of_mem (by simp [split])
  have notDone : request.replay key ∉ done.map request.replay := by
    rw [mem_map_of_injective request.replay_injective]
    exact not_mem_done answer split
  have missing : ledger.receive emit keyCols sender rows (done.map request.replay) sender
      (request.replay key) = none := by
    rw [receive_of_not_mem notDone]
    exact answer.first _ inRequest
  exact ⟨missing, working.represents.find readable.ordered (.inr inRequest)
    (working.inPlay split) answer.isParent missing⟩

theorem Working.buffered :
    Buffered emit (ledger.receive emit keyCols sender rows ((done ++ [key]).map request.replay))
      (request.replay key) (withTaken keyCols sender request state key) := by
  obtain ⟨missing, found⟩ := working.unanswered answer readable split
  have isNew : request.replay key ∈ (done ++ [key]).map request.replay := by simp
  apply found.add answer.isParent missing
  · rw [receive_of_mem isNew, if_pos rfl]
  · intro parent ne
    rw [receive_of_mem isNew, if_neg ne, Ledger.receive, if_neg (by simp [ne])]
  · rw [working.remaining]
    exact project_taken_perm readable split (not_mem_done answer split)

end

/-- One key is worked off: its replay is released or captured as the ledger
says, with the rows that the ledger says. -/
theorem onKey_spec {hashing : Hashing V} (distinctParents : (parents emit).Nodup)
    (answer : FirstAnswer emit keyCols ledger sender request)
    (readable : Readable emit keyCols ledger sender rows request)
    (split : request.keys = done ++ key :: rest)
    (working : Working emit keyCols ledger sender rows request done state) :
    ∃ next, onKey hashing sender (keyCols request.tag) request.replay state key = .ok next ∧
      Working emit keyCols ledger sender rows request (done ++ [key]) next := by
  set replay := request.replay key with replayEq
  set after := ledger.receive emit keyCols sender rows ((done ++ [key]).map request.replay)
    with afterEq
  have inRequest : replay ∈ request.replays := mem_map_of_mem (by simp [split])
  have settled : ∀ parent, ledger.receive emit keyCols sender rows request.replays parent replay =
      after parent replay := by
    intro parent
    rw [receive_of_mem inRequest, afterEq, receive_of_mem (by simp [replayEq])]
  have sameComplete : complete emit
      (ledger.receive emit keyCols sender rows request.replays) replay =
        complete emit after replay := complete_congr settled
  have otherReplays : ∀ other, other ≠ replay → ∀ parent, after parent other =
      ledger.receive emit keyCols sender rows (done.map request.replay) parent other :=
    fun other ne parent => by simp [after, Ledger.receive, replayEq ▸ ne]
  have added := working.buffered answer readable split
  have counted : (state.union.piecesOf replay).length + 1 = state.union.required ↔
      complete emit after replay = true := by
    rw [working.represents.unionAll.requires, ← added.length_eq_iff distinctParents]
    simp [withTaken, replayEq]
  have valid : ¬ key.isValidRange = false := by
    simp [answer.valid key (by simp [split])]
  have unanswered : ¬ ((state.union.piecesOf replay).lookup sender).isSome = true := by
    obtain ⟨missing, found⟩ := working.unanswered answer readable split
    rw [Option.not_isSome_iff_eq_none, lookup_eq_none_iff]
    intro mem
    obtain ⟨piece, inPieces, rfl⟩ := mem_map.mp mem
    obtain ⟨_, contributed, _⟩ := found.holds piece inPieces
    rw [missing] at contributed
    contradiction
  simp only [onKey]
  rw [if_neg valid, if_neg unanswered]
  by_cases full : complete emit after replay = true
  · -- The last piece of the replay.
    have represents := working.represents.erase readable.ordered (.inr inRequest)
      (working.inPlay split) otherReplays full
    have order := hashing.order_perm (withTaken keyCols sender request state key)
    have releases := represents.unionAll.releasePieces hashing
      (hashing.order (withTaken keyCols sender request state key))
      fun piece mem => added.fromParents piece (order.mem_iff.mp mem)
    rw [withTaken] at releases order
    rw [if_pos (counted.mpr full), releases]
    refine ⟨_, rfl, represents, working.knows, working.next_remaining, ?_, ?_, ?_⟩
    · simp [working.released, sameComplete, full, ← replayEq]
    · simp [working.captured, sameComplete, full, ← replayEq]
    · have sameRows : contributions emit
          (ledger.receive emit keyCols sender rows request.replays) replay =
            contributions emit after replay := by
        simp [contributions, settled]
      rw [flatMap_append, flatMap_singleton, sameRows]
      refine working.rows.append ?_
      exact (order.flatMap_right _).trans (added.perm_contributions distinctParents full)
  · -- Other parents' pieces are missing.
    have isPending : Pending emit after replay := by
      refine ⟨⟨sender, answer.isParent, ?_⟩, by simpa using full⟩
      rw [afterEq, receive_of_mem (by simp [replayEq]), if_pos rfl]
      rfl
    rw [if_neg (mt counted.mp full)]
    refine ⟨_, rfl, working.represents.insert readable.ordered (.inr inRequest)
      (working.inPlay split) otherReplays working.knows isPending added, working.knows,
      working.next_remaining, ?_, ?_, ?_⟩
    · simp [working.released, sameComplete, full, ← replayEq]
    · simp [working.captured, sameComplete, full, ← replayEq]
    · exact working.rows

/-- A piece releases the keys that are complete with it, with all that the
parents contributed to them, and captures the others. -/
theorem onPiece_spec {union : Union V} (hashing : Hashing V)
    (distinctParents : (parents emit).Nodup)
    (inOutput : InOutput emit keyCols) (represents : Represents emit keyCols union ledger)
    (answer : FirstAnswer emit keyCols ledger sender request)
    (readable : Readable emit keyCols ledger sender rows request) :
    let after := ledger.receive emit keyCols sender rows request.replays
    let released := request.keys.filter fun key => complete emit after (request.replay key)
    ∃ output next, step hashing keyCols union (.piece sender rows request) =
        .ok (.replayPiece output released
          (request.keys.filter fun key => !complete emit after (request.replay key)), next) ∧
      output.Perm (released.flatMap fun key =>
        contributions emit after (request.replay key)) ∧
      Represents emit keyCols next after := by
  obtain ⟨replayKey, learned, representsNow, knows⟩ :=
    learnReplayKey_spec inOutput represents answer.isParent
  have start : Working emit keyCols ledger sender rows request []
      { rowsByKey := grouped (keyCols request.tag) rows, union := { union with replayKey } } :=
    { represents := by
        have same : ledger.receive emit keyCols sender rows [] = ledger := by
          funext parent replay
          exact receive_of_not_mem (by simp)
        rw [map_nil, same]
        exact representsNow
      knows := knows
      remaining := by simp
      released := rfl
      captured := rfl
      rows := Perm.refl _ }
  obtain ⟨final, folded, working⟩ := foldlM_invariant
    (onKey hashing sender (keyCols request.tag) request.replay)
    (Working emit keyCols ledger sender rows request) request.keys
    (fun done key rest state split working =>
      onKey_spec distinctParents answer readable split working) start
  refine ⟨final.rows, final.union, ?_, ?_, working.represents⟩
  · have notMerger : union.isShardMerger = false := by
      simp [isShardMerger, represents.unionAll.emits]
    have keyed : (keyCols request.tag).isEmpty = false := by simpa using answer.keyed
    rw [step, onInputRaw, onPiece, notMerger, learned]
    simp only [keyed]
    rw [← working.released, ← working.captured]
    exact congrArg (fun result : ReadySetResult (PieceState V) => result >>= fun state =>
      pure (RawProcessingResult.replayPiece state.rows state.released state.captured,
        state.union)) folded
  · rw [← working.released]
    exact working.rows

end

end ReadySet.Ops.Union
