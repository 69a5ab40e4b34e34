import ReadySet.Ops.Union.Pieces
import ReadySet.Ops.Union.ReplayKeys

/-!
Owns the guarantee of partial replays through a union, over whole runs: every
update is forwarded, every replayed key is held back until the last parent has
answered and is then delivered once, with all that the parents contributed.
-/

namespace ReadySet.Ops.Union

open Data Library Dataflow

universe u

variable {V : Type u} [LinearOrder V] {union : Union V} {event : Event V}

section

variable (emit : List (LocalNodeIndex × List Nat)) (cols : Tag → List Nat)

/-- An event as the replay protocol has it. -/
def WellFormed (earlier : List (Event V)) : Event V → Prop
  | .update sender _ => sender ∈ parents emit
  | .piece sender _ request =>
    FirstAnswer emit cols (ledgerOf emit cols earlier) sender request
  | .full _ _ _ => False

/-- The operator reads the event's piece as it is meant. -/
def ReadableEvent (earlier : List (Event V)) : Event V → Prop
  | .piece sender rows request =>
    Readable emit cols (ledgerOf emit cols earlier) sender rows request
  | _ => True

/-- What an event has to bring forth: an update is forwarded; a piece releases
the keys for which it is the last one, and captures the others. -/
def Delivers (earlier : List (Event V)) (event : Event V) (output : RawProcessingResult V) :
    Prop :=
  let after := (ledgerOf emit cols earlier).after emit cols event
  match event with
  | .update sender batch =>
    output = .regular { results := project (emitOf emit sender) batch }
  | .piece _ _ request =>
    ∃ rows, output = .replayPiece rows
        (request.keys.filter fun key => complete emit after (request.replay key))
        (request.keys.filter fun key => !complete emit after (request.replay key)) ∧
      rows.Perm ((request.keys.filter fun key =>
        complete emit after (request.replay key)).flatMap fun key =>
          contributions emit after (request.replay key))
  | .full _ _ _ => False

/-- The replays that a step reports released. -/
def releasedBy : Event V × RawProcessingResult V → List (BufferedReplayKey V)
  | (.piece _ _ request, .replayPiece _ keys _) => keys.map request.replay
  | _ => []

variable {emit cols} {earlier : List (Event V)}

omit [LinearOrder V] in
theorem count_map_filter_replay [DecidableEq V] {request : Request V}
    (distinct : request.keys.Nodup) (wanted : BufferedReplayKey V → Bool)
    (replay : BufferedReplayKey V) :
    ((request.keys.filter fun key => wanted (request.replay key)).map request.replay).count replay =
      if replay ∈ request.replays ∧ wanted replay = true then 1 else 0 := by
  have nodup : ((request.keys.filter fun key =>
      wanted (request.replay key)).map request.replay).Nodup :=
    (distinct.filter _).map request.replay_injective
  rw [List.Nodup.count nodup]
  congr 1
  simp only [List.mem_map, List.mem_filter, Request.replays, eq_iff_iff]
  constructor
  · rintro ⟨key, ⟨mem, isWanted⟩, rfl⟩
    exact ⟨⟨key, mem, rfl⟩, isWanted⟩
  · rintro ⟨⟨key, mem, rfl⟩, isWanted⟩
    exact ⟨key, ⟨mem, isWanted⟩, rfl⟩

/-- A replay is released when its last parent has answered. -/
theorem count_releasedBy {output : RawProcessingResult V} (wf : WellFormed emit cols earlier event)
    (delivers : Delivers emit cols earlier event output) (replay : BufferedReplayKey V) :
    (if complete emit (ledgerOf emit cols earlier) replay then 1 else 0) +
        (releasedBy (event, output)).count replay =
      if complete emit (ledgerOf emit cols (earlier ++ [event])) replay then 1 else 0 := by
  cases event with
  | update sender batch =>
    simp [releasedBy, Ledger.after]
  | piece sender rows request =>
    obtain ⟨out, rfl, _⟩ := delivers
    rw [releasedBy, count_map_filter_replay wf.distinct]
    by_cases mem : replay ∈ request.replays
    · have notYet := not_complete_of_none wf.isParent (wf.first replay mem)
      simp [notYet, mem]
    · have same : complete emit ((ledgerOf emit cols earlier).after emit cols
          (.piece sender rows request)) replay =
            complete emit (ledgerOf emit cols earlier) replay :=
        complete_congr fun parent => receive_of_not_mem mem
      simp [same, mem]
  | full sender rows last => exact delivers.elim

omit [LinearOrder V] in
theorem parents_ne_nil (created : Union.new emit .unionAll = .ok union) : parents emit ≠ [] := by
  rintro noParents
  have empty : emit = [] := by simpa [parents] using noParents
  simp [Union.new, empty] at created

theorem new_represents (created : Union.new emit .unionAll = .ok union) :
    Represents emit cols union fun _ _ => none := by
  obtain rfl := eq_of_new created
  exact
    { unionAll := ⟨rfl, rfl, rfl⟩
      noFull := rfl
      replayKeys := fun tag => .inr fun parent => rfl
      sorted := List.Pairwise.nil
      knows := by simp
      pending := by simp
      buffered := by simp
      present := by
        rintro replay ⟨⟨parent, _, sent⟩, _⟩
        simp at sent }

/-- One event of a well-formed run, read as it is meant, brings forth what it
has to, and the state represents the ledger again. -/
theorem step_delivers (hashing : Hashing V) (distinctParents : (parents emit).Nodup)
    (inOutput : InOutput emit cols)
    (represents : Represents emit cols union (ledgerOf emit cols earlier))
    (wf : WellFormed emit cols earlier event) (readable : ReadableEvent emit cols earlier event) :
    ∃ output next, step hashing cols union event = .ok (output, next) ∧
      Delivers emit cols earlier event output ∧
      Represents emit cols next (ledgerOf emit cols (earlier ++ [event])) := by
  rw [ledgerOf_concat]
  cases event with
  | update sender batch =>
    obtain ⟨next, stepped, kept⟩ := onUpdate_spec hashing inOutput represents wf batch
    exact ⟨_, next, stepped, rfl, kept⟩
  | piece sender rows request =>
    obtain ⟨out, next, stepped, same, kept⟩ :=
      onPiece_spec hashing distinctParents inOutput represents wf readable
    exact ⟨_, next, stepped, ⟨out, rfl, same⟩, kept⟩
  | full sender rows last => exact wf.elim

end

variable {emit : List (LocalNodeIndex × List Nat)} {cols : Tag → List Nat}

/-- A trace and the state it leads to: every step has brought forth what it
had to, and the replays released so far are the complete ones. -/
structure Delivered (emit : List (LocalNodeIndex × List Nat)) (cols : Tag → List Nat)
    (trace : List (Event V × RawProcessingResult V)) (union : Union V) : Prop where
  represents : Represents emit cols union (ledgerOf emit cols (trace.map Prod.fst))
  delivers : EveryStep (fun earlier entry =>
    Delivers emit cols (earlier.map Prod.fst) entry.1 entry.2) trace
  once : ∀ replay, (trace.flatMap releasedBy).count replay =
    if complete emit (ledgerOf emit cols (trace.map Prod.fst)) replay then 1 else 0

theorem new_delivered (created : Union.new emit .unionAll = .ok union) :
    Delivered emit cols [] union where
  represents := new_represents created
  delivers := everyStep_nil
  once replay := by
    obtain ⟨parent, isParent⟩ := List.exists_mem_of_ne_nil _ (parents_ne_nil created)
    have incomplete : complete emit (ledgerOf emit cols []) replay = false :=
      not_complete_of_none isParent rfl
    simp [incomplete]

theorem Delivered.step (hashing : Hashing V) (distinctParents : (parents emit).Nodup)
    (inOutput : InOutput emit cols) {trace : List (Event V × RawProcessingResult V)}
    (delivered : Delivered emit cols trace union)
    (wf : WellFormed emit cols (trace.map Prod.fst) event)
    (readable : ReadableEvent emit cols (trace.map Prod.fst) event) :
    ∃ output next, Union.step hashing cols union event = .ok (output, next) ∧
      Delivered emit cols (trace ++ [(event, output)]) next := by
  obtain ⟨output, next, stepped, delivers, kept⟩ :=
    step_delivers hashing distinctParents inOutput delivered.represents wf readable
  refine ⟨output, next, stepped, by simpa using kept,
    everyStep_concat.mpr ⟨delivered.delivers, delivers⟩, fun replay => ?_⟩
  rw [List.flatMap_append, List.count_append, delivered.once, List.flatMap_singleton,
    count_releasedBy wf delivers]
  simp

/-- In every run of updates and first answers that the operator reads as they
are meant, every update is forwarded, and every replayed key is captured until
its last parent has answered, released at that moment with what the parents
contributed, and released only once. -/
theorem run_delivers (hashing : Hashing V) {union : Union V}
    (created : Union.new emit .unionAll = .ok union) (distinctParents : (parents emit).Nodup)
    (inOutput : InOutput emit cols) {events : List (Event V)}
    (wellFormed : EveryStep (WellFormed emit cols) events)
    (readable : EveryStep (ReadableEvent emit cols) events) :
    ∃ trace final, run (step hashing cols) union events = .ok (trace, final) ∧
      trace.map Prod.fst = events ∧
      EveryStep (fun earlier entry =>
        Delivers emit cols (earlier.map Prod.fst) entry.1 entry.2) trace ∧
      ∀ replay, (trace.flatMap releasedBy).count replay =
        if complete emit (ledgerOf emit cols events) replay then 1 else 0 := by
  have admitted : EveryStep (fun earlier event =>
      WellFormed emit cols earlier event ∧ ReadableEvent emit cols earlier event) events :=
    fun earlier event later same =>
      ⟨wellFormed earlier event later same, readable earlier event later same⟩
  obtain ⟨trace, final, ran, rfl, delivered⟩ := run_invariant (step hashing cols)
    (Delivered emit cols)
    (fun trace union event delivered admissible =>
      delivered.step hashing distinctParents inOutput admissible.1 admissible.2)
    (new_delivered created) admitted
  exact ⟨trace, final, ran, rfl, delivered.delivers, delivered.once⟩

/-! ## Replays of points -/

/-- Replays of points only are ordered: the comparison goes wrong on ranges. -/
theorem orderedOn_points {keys : BufferedReplayKey V → Prop}
    (points : ∀ replay, keys replay → ∃ point, replay.key = .equal point) :
    OrderedOn BufferedReplayKey.cmp keys := by
  have same left right (isLeft : keys left) : left.cmp right = left.cmpBounds right := by
    obtain ⟨point, isPoint⟩ := points left isLeft
    refine (BufferedReplayKey.cmp_eq_cmpBounds_iff (by rw [isPoint]; rfl)).mpr fun _ _ _ => ?_
    rw [isPoint]
    trivial
  constructor
  case refl =>
    intro replay isKey
    rw [same replay replay isKey]
    exact Std.ReflCmp.compare_self
  case swap =>
    intro left right isLeft isRight
    rw [same left right isLeft, same right left isRight]
    exact Std.OrientedCmp.eq_swap
  case trans =>
    intro left middle right isLeft isMiddle _
    rw [same left middle isLeft, same middle right isMiddle, same left right isLeft]
    exact Std.TransCmp.lt_trans
  case separates =>
    intro left right isLeft isRight isEq
    rw [same left right isLeft, BufferedReplayKey.cmpBounds_eq_iff] at isEq
    obtain ⟨leftPoint, leftIs⟩ := points left isLeft
    obtain ⟨rightPoint, rightIs⟩ := points right isRight
    cases left
    cases right
    simp_all [BufferedReplayKey.eq, KeyComparison.eq]

/-! ## A column dropped in front of the key -/

/-- The first parent's rows carry a column in front of the output column. -/
def droppedColumn : List (LocalNodeIndex × List Nat) := [(0, [1]), (1, [0])]

def sevenRequest : Request Nat where
  tag := 0
  keys := [.equal [.value 7]]
  requestingShard := 0
  requestingReplica := 0

def sevenPieces : List (Event Nat) :=
  [.piece 0 [.positive [.value 5, .value 7]] sevenRequest,
    .piece 1 [.positive [.value 7]] sevenRequest]

/-- Both parents answer the request for 7, but the row of the first is read as
a row for 5 and dropped: the release delivers one row in place of two. -/
theorem droppedColumn_loses_row :
    EveryStep (WellFormed droppedColumn fun _ => [0]) sevenPieces ∧
      ∃ union trace final, Union.new droppedColumn .unionAll = .ok union ∧
        run (step .inInsertionOrder fun _ => [0]) union sevenPieces = .ok (trace, final) ∧
        trace.map Prod.fst = sevenPieces ∧
        ¬ EveryStep (fun earlier entry =>
          Delivers droppedColumn (fun _ => [0]) (earlier.map Prod.fst) entry.1 entry.2) trace := by
  refine ⟨?_, _, _, _, rfl, rfl, rfl, ?_⟩
  · rw [show sevenPieces = ([] ++ [.piece 0 [.positive [.value 5, .value 7]] sevenRequest]) ++
      [.piece 1 [.positive [.value 7]] sevenRequest] from rfl, everyStep_concat, everyStep_concat]
    refine ⟨⟨everyStep_nil, ?_⟩, ?_⟩
    · exact ⟨by decide, by decide, by decide, by decide, by decide⟩
    · exact ⟨by decide, by decide, by decide, by decide, by decide⟩
  · intro delivered
    obtain ⟨rows, same, perm⟩ := delivered [_] _ [] rfl
    have lengths := perm.length_eq
    rw [← (RawProcessingResult.replayPiece.inj same).1] at lengths
    revert lengths
    decide

/-- The first parent's rows carry a column behind the output column. -/
def sevenRun : List (Event Nat) :=
  [.piece 0 [.positive [.value 7, .value 5]] sevenRequest,
    .update 0 [.positive [.value 7, .value 6]],
    .piece 1 [.positive [.value 7]] sevenRequest]

theorem run_delivers_sevenRun :
    ∃ union, Union.new twoParents .unionAll = .ok union ∧
      ∃ trace final, run (step .inInsertionOrder fun _ => [0]) union sevenRun = .ok (trace, final) ∧
        trace.map Prod.fst = sevenRun ∧
        EveryStep (fun earlier entry =>
          Delivers twoParents (fun _ => [0]) (earlier.map Prod.fst) entry.1 entry.2) trace ∧
        ∀ replay, (trace.flatMap releasedBy).count replay =
          if complete twoParents (ledgerOf twoParents (fun _ => [0]) sevenRun) replay
          then 1 else 0 := by
  have events : sevenRun = (([] ++ [.piece 0 [.positive [.value 7, .value 5]] sevenRequest]) ++
      [.update 0 [.positive [.value 7, .value 6]]]) ++
      [.piece 1 [.positive [.value 7]] sevenRequest] := rfl
  have onlySeven : ∀ ledger : Ledger Nat, (∀ parent replay, replay ≠ sevenRequest.replay
      (.equal [.value 7]) → ledger parent replay = none) → OrderedOn BufferedReplayKey.cmp
        fun replay => Pending twoParents ledger replay ∨ replay ∈ sevenRequest.replays := by
    intro ledger others
    apply orderedOn_points
    rintro replay (⟨⟨parent, _, sent⟩, _⟩ | member)
    · by_cases same : replay = sevenRequest.replay (.equal [.value 7])
      · exact ⟨_, by rw [same]; rfl⟩
      · simp [others parent replay same] at sent
    · exact ⟨[.value 7], by simp_all [Request.replays, Request.replay, sevenRequest]⟩
  refine ⟨_, rfl, run_delivers .inInsertionOrder rfl (by decide) ?_ ?_ ?_⟩
  · intro tag column member
    obtain rfl : column = 0 := by simpa using member
    decide
  · rw [events, everyStep_concat, everyStep_concat, everyStep_concat]
    refine ⟨⟨⟨everyStep_nil, ?_⟩, ?_⟩, ?_⟩
    · exact ⟨by decide, by decide, by decide, by decide, by decide⟩
    · exact show 0 ∈ parents twoParents by decide
    · exact ⟨by decide, by decide, by decide, by decide, by decide⟩
  · rw [events, everyStep_concat, everyStep_concat, everyStep_concat]
    refine ⟨⟨⟨everyStep_nil, ?_⟩, trivial⟩, ?_⟩
    · exact ⟨by decide, by decide, onlySeven _ fun _ _ _ => rfl⟩
    · refine ⟨by decide, by decide, onlySeven _ fun parent replay different => ?_⟩
      have notAsked : replay ∉ sevenRequest.replays := by
        simpa [Request.replays, sevenRequest] using different
      simp [ledgerOf, Ledger.after, Ledger.follow, Ledger.receive, notAsked]

end ReadySet.Ops.Union
