import ReadySet.Ops.Union.Pieces

/-!
Owns full replays through a union in `UnionAll` mode. The abstract side is the
progress of the parents: which have begun, which are done, and what is owed
downstream. The operator holds everything back until every parent has begun,
and from then on passes on what is owed as it comes.
-/

namespace ReadySet.Ops.Union

open Data Library Dataflow

universe u

variable {V : Type u} {sender : LocalNodeIndex} {rows : List (Record V)} {last : Bool}
  {event : Event V}

/-! ## Progress -/

section

variable (emit : List (LocalNodeIndex × List Nat))

/-- How far the parents' full replays are: the parents that have sent a piece,
those that have sent their last one, and the output records owed downstream,
which are the pieces and the updates that follow a parent's first piece. -/
structure Progress (V : Type u) where
  started : Finset LocalNodeIndex
  finished : Finset LocalNodeIndex
  owed : List (Record V)

def Progress.after (progress : Progress V) : Event V → Progress V
  | .update sender batch =>
    if sender ∈ progress.started then
      { progress with owed := progress.owed ++ project (emitOf emit sender) batch }
    else progress
  | .full sender rows last =>
    { started := insert sender progress.started
      finished := if last then insert sender progress.finished else progress.finished
      owed := progress.owed ++ project (emitOf emit sender) rows }
  | .piece _ _ _ => progress

/-- The progress after a sequence of events. -/
def progressOf (events : List (Event V)) : Progress V :=
  events.foldl (Progress.after emit) { started := ∅, finished := ∅, owed := [] }

/-- An event of one full replay for each parent: a parent that has sent its
last piece sends updates only. -/
def Progress.Admits (progress : Progress V) : Event V → Prop
  | .update sender _ => sender ∈ parents emit
  | .full sender _ _ => sender ∈ parents emit ∧ sender ∉ progress.finished
  | .piece _ _ _ => False

/-- Only parents begin, and only those that have begun finish. -/
structure Progress.Valid (progress : Progress V) : Prop where
  startedParents : progress.started ⊆ (parents emit).toFinset
  finishedStarted : progress.finished ⊆ progress.started

variable {emit} {progress : Progress V}

@[simp] theorem progressOf_concat (events : List (Event V)) (event : Event V) :
    progressOf emit (events ++ [event]) = (progressOf emit events).after emit event := by
  simp [progressOf]

section

variable (sender : LocalNodeIndex) (batch : List (Record V))

@[simp] theorem Progress.started_after_update :
    (progress.after emit (.update sender batch)).started = progress.started := by
  rw [after]
  split <;> rfl

@[simp] theorem Progress.finished_after_update :
    (progress.after emit (.update sender batch)).finished = progress.finished := by
  rw [after]
  split <;> rfl

end

theorem card_parents (nodup : (parents emit).Nodup) :
    (parents emit).toFinset.card = emit.length := by
  rw [List.toFinset_card_of_nodup nodup]
  simp [parents]

theorem card_eq_iff (nodup : (parents emit).Nodup) {senders : Finset LocalNodeIndex}
    (within : senders ⊆ (parents emit).toFinset) :
    senders.card = emit.length ↔ ∀ parent ∈ parents emit, parent ∈ senders := by
  rw [← card_parents nodup]
  constructor
  · intro same parent isParent
    rw [Finset.eq_of_subset_of_card_le within (le_of_eq same.symm)]
    exact List.mem_toFinset.mpr isParent
  · intro everyone
    have all : (parents emit).toFinset ⊆ senders :=
      fun parent isParent => everyone parent (List.mem_toFinset.mp isParent)
    exact congrArg Finset.card (Finset.Subset.antisymm within all)

section

variable (valid : progress.Valid emit)

include valid

theorem Progress.Valid.after (admitted : progress.Admits emit event) :
    (progress.after emit event).Valid emit := by
  cases event with
  | update sender batch =>
    exact ⟨by simpa using valid.startedParents, by simpa using valid.finishedStarted⟩
  | piece sender rows request => exact admitted.elim
  | full sender rows last =>
    constructor
    · exact Finset.insert_subset (List.mem_toFinset.mpr admitted.1) valid.startedParents
    · simp only [after]
      split
      · exact Finset.insert_subset_insert sender valid.finishedStarted
      · exact valid.finishedStarted.trans (Finset.subset_insert sender _)

theorem Progress.Valid.started_of_finished (nodup : (parents emit).Nodup)
    (done : progress.finished.card = emit.length) : progress.started.card = emit.length := by
  have finishedParents := valid.finishedStarted.trans valid.startedParents
  rw [card_eq_iff nodup valid.startedParents]
  intro parent isParent
  exact valid.finishedStarted ((card_eq_iff nodup finishedParents).mp done parent isParent)

theorem Progress.Valid.finished_ne (nodup : (parents emit).Nodup)
    (isParent : sender ∈ parents emit) (unfinished : sender ∉ progress.finished) :
    progress.finished.card ≠ emit.length := by
  intro done
  have finishedParents := valid.finishedStarted.trans valid.startedParents
  exact unfinished ((card_eq_iff nodup finishedParents).mp done sender isParent)

end

end

open Progress (after)

/-! ## What is sent on -/

/-- The full replay messages sent on, with their `last` flags. -/
def fullReplays (trace : List (Event V × RawProcessingResult V)) :
    List (List (Record V) × Bool) :=
  trace.filterMap fun entry =>
    match entry.2 with
    | .fullReplay rows last => some (rows, last)
    | _ => none

def isFullReplay : RawProcessingResult V → Bool
  | .fullReplay _ _ => true
  | _ => false

def sentRecords : RawProcessingResult V → List (Record V)
  | .regular result => result.results
  | .fullReplay rows _ => rows
  | .replayPiece rows _ _ => rows
  | .capturedFull => []

/-- What reaches the target from the first full replay message on: the replay
rows and the updates forwarded after it. -/
def delivered (trace : List (Event V × RawProcessingResult V)) : List (Record V) :=
  (trace.dropWhile fun entry => !isFullReplay entry.2).flatMap fun entry => sentRecords entry.2

theorem dropWhile_eq_nil_iff (trace : List (Event V × RawProcessingResult V)) :
    (trace.dropWhile fun entry => !isFullReplay entry.2) = [] ↔ fullReplays trace = [] := by
  rw [List.dropWhile_eq_nil_iff, fullReplays, List.filterMap_eq_nil_iff]
  refine forall₂_congr fun entry _ => ?_
  obtain ⟨event, output⟩ := entry
  cases output <;> simp [isFullReplay]

variable {trace : List (Event V × RawProcessingResult V)}

theorem delivered_concat_of_begun (begun : fullReplays trace ≠ []) (event : Event V)
    (output : RawProcessingResult V) :
    delivered (trace ++ [(event, output)]) = delivered trace ++ sentRecords output := by
  have nonempty := mt (dropWhile_eq_nil_iff trace).mp begun
  rw [delivered, List.dropWhile_append, if_neg (by simpa using nonempty)]
  simp [delivered]

/-! ## The operator's side -/

section

variable [LinearOrder V] (emit : List (LocalNodeIndex × List Nat))

/-- The operator's wait state for a progress. What is owed is buffered until
every parent has begun. -/
def Waits (progress : Progress V) : FullWait V → Prop
  | .none =>
    (progress.started = ∅ ∧ progress.owed = []) ∨ progress.finished.card = emit.length
  | .ongoing started finished buffered =>
    started = progress.started ∧ finished = progress.finished.card ∧
      finished ≠ emit.length ∧
      buffered = if progress.started.card = emit.length then [] else progress.owed

/-- The message for a piece: nothing before every parent has begun, then all
that is owed, then piece by piece. -/
def fullOutput (before after : Progress V) (rows : List (Record V)) : RawProcessingResult V :=
  if after.started.card = emit.length then
    .fullReplay (if before.started.card = emit.length then rows else after.owed)
      (after.finished.card = emit.length)
  else .capturedFull

variable {emit} {progress : Progress V} {union : Union V}

section

variable (hashing : Hashing V) (keyCols : Tag → List Nat)

/-- A piece of a full replay is held back or passed on. -/
theorem onFull_spec (nodup : (parents emit).Nodup) (several : 2 ≤ emit.length)
    (unionAll : UnionAll emit union) (valid : progress.Valid emit)
    (admitted : progress.Admits emit (.full sender rows last))
    (waits : Waits emit progress union.fullWaitState) :
    ∃ fullWaitState, step hashing keyCols union (.full sender rows last) =
        .ok (fullOutput emit progress (progress.after emit (.full sender rows last))
            (project (emitOf emit sender) rows), { union with fullWaitState }) ∧
      Waits emit (progress.after emit (.full sender rows last)) fullWaitState := by
  have validAfter := valid.after admitted
  obtain ⟨isParent, unfinished⟩ := admitted
  have counted : (progress.after emit (.full sender rows last)).finished.card =
      if last then progress.finished.card + 1 else progress.finished.card := by
    cases last with
    | false => simp [after]
    | true => simp [after, Finset.card_insert_of_notMem unfinished]
  set after := progress.after emit (.full sender rows last) with afterEq
  have startedAfter : after.started = insert sender progress.started := rfl
  have owedAfter : after.owed = progress.owed ++ project (emitOf emit sender) rows := rfl
  have notDone := valid.finished_ne nodup isParent unfinished
  rw [step, onInputRaw, onFull, unionAll.onInput hashing isParent]
  simp only [unionAll.requires, ok_bind, pure_eq_ok]
  cases state : union.fullWaitState with
  | none =>
    rw [state] at waits
    obtain ⟨noneStarted, nothingOwed⟩ := waits.resolve_right notDone
    have noneFinished : progress.finished = ∅ :=
      Finset.subset_empty.mp (noneStarted ▸ valid.finishedStarted)
    have oneStarted : after.started.card = 1 := by simp [startedAfter, noneStarted]
    have finishedNow : after.finished.card = if last then 1 else 0 := by
      simpa [noneFinished] using counted
    have held : after.started.card ≠ emit.length := by omega
    have running : after.finished.card ≠ emit.length := by
      rw [finishedNow]
      split <;> omega
    rw [if_neg (by omega), fullOutput, if_neg held]
    refine ⟨_, rfl, ?_, ?_, ?_, ?_⟩
    · simp [startedAfter, noneStarted]
    · exact finishedNow.symm
    · rw [← finishedNow]
      exact running
    · rw [if_neg held, owedAfter, nothingOwed, List.nil_append]
  | ongoing started finished buffered =>
    rw [state] at waits
    obtain ⟨rfl, rfl, _, rfl⟩ := waits
    simp only [← counted]
    by_cases done : after.finished.card = emit.length
    · -- The last piece of the last parent.
      have begun := validAfter.started_of_finished nodup done
      rw [fullOutput, if_pos begun]
      refine ⟨.none, ?_, .inr done⟩
      by_cases begunBefore : progress.started.card = emit.length <;>
        simp [begunBefore, owedAfter, done]
    · rw [if_neg done]
      by_cases begunBefore : progress.started.card = emit.length
      · -- Every parent has begun before: the piece is passed on.
        have known : sender ∈ progress.started :=
          (card_eq_iff nodup valid.startedParents).mp begunBefore sender isParent
        have sameStarted : after.started = progress.started := by
          rw [startedAfter, Finset.insert_eq_of_mem known]
        have begun : after.started.card = emit.length := by rw [sameStarted, begunBefore]
        simp only [begunBefore, ne_eq, not_true_eq_false, if_false, if_true]
        refine ⟨.ongoing progress.started after.finished.card [], ?_, sameStarted.symm, rfl,
          done, ?_⟩
        · rw [fullOutput, if_pos begun, if_pos begunBefore, decide_eq_false done]
        · rw [if_pos begun]
      · simp only [begunBefore, ne_eq, not_false_eq_true, if_true]
        by_cases begun : after.started.card = emit.length
        · -- This parent is the last one to begin: all that is owed is released.
          have fresh : sender ∉ progress.started := by
            intro known
            rw [startedAfter, Finset.insert_eq_of_mem known] at begun
            exact begunBefore begun
          rw [if_pos ⟨fresh, begun⟩]
          refine ⟨.ongoing after.started after.finished.card [], ?_, rfl, rfl, done, ?_⟩
          · rw [fullOutput, if_pos begun, if_neg begunBefore, decide_eq_false done]
            rfl
          · rw [if_pos begun]
        · rw [if_neg fun both => begun both.2]
          refine ⟨.ongoing after.started after.finished.card after.owed, ?_, rfl, rfl, done, ?_⟩
          · rw [fullOutput, if_neg begun]
            rfl
          · rw [if_neg begun]

/-- So is an update during a full replay. -/
theorem onUpdate_full_spec (unionAll : UnionAll emit union) (noPieces : union.replayPieces = [])
    (batch : List (Record V)) (isParent : sender ∈ parents emit)
    (waits : Waits emit progress union.fullWaitState) :
    ∃ fullWaitState, step hashing keyCols union (.update sender batch) =
        .ok (.regular { results := project (emitOf emit sender) batch },
          { union with fullWaitState }) ∧
      Waits emit (progress.after emit (.update sender batch)) fullWaitState := by
  have forwards : union.absorbsForFull sender = false →
      step hashing keyCols union (.update sender batch) =
        .ok (.regular { results := project (emitOf emit sender) batch }, union) := by
    intro notAbsorbed
    rw [step, onInputRaw, onUpdate, notAbsorbed, if_neg Bool.false_ne_true,
      if_pos (by simp [noPieces]), unionAll.onInput hashing isParent]
    rfl
  cases state : union.fullWaitState with
  | none =>
    refine ⟨union.fullWaitState, forwards (by simp [absorbsForFull, state]), ?_⟩
    rw [state] at waits ⊢
    rcases waits with ⟨noneStarted, nothingOwed⟩ | done
    · exact .inl (by simp [after, noneStarted, nothingOwed])
    · exact .inr (by simpa using done)
  | ongoing started finished buffered =>
    rw [state] at waits
    obtain ⟨rfl, rfl, running, rfl⟩ := waits
    by_cases known : sender ∈ progress.started
    · have owed : progress.after emit (.update sender batch) =
          { progress with owed := progress.owed ++ project (emitOf emit sender) batch } := by
        rw [after, if_pos known]
      rw [owed]
      by_cases begun : progress.started.card = emit.length
      · -- Every parent has begun: the update is sent on, and not kept.
        refine ⟨union.fullWaitState, forwards ?_, ?_⟩
        · simp [absorbsForFull, state, unionAll.requires, begun]
        · rw [state]
          exact ⟨rfl, rfl, running, by rw [if_pos begun, if_pos begun]⟩
      · -- The update follows a piece that is held back, and joins it.
        have absorbs : union.absorbsForFull sender = true := by
          simp [absorbsForFull, state, unionAll.requires, begun, known]
        refine ⟨.ongoing progress.started progress.finished.card
          (progress.owed ++ project (emitOf emit sender) batch), ?_, rfl, rfl, running, ?_⟩
        · rw [step, onInputRaw, onUpdate, if_pos absorbs, if_pos (by simp [noPieces]),
            unionAll.onInput hashing isParent]
          simp [state, begun]
        · rw [if_neg begun]
    · have same : progress.after emit (.update sender batch) = progress := by
        rw [after, if_neg known]
      rw [same]
      refine ⟨union.fullWaitState, forwards ?_, ?_⟩
      · simp [absorbsForFull, state, known]
      · rw [state]
        exact ⟨rfl, rfl, running, rfl⟩

end

end

/-! ## Runs -/

section

variable [LinearOrder V] {emit : List (LocalNodeIndex × List Nat)} {keyCols : Tag → List Nat}

/-- A trace of full replays and updates, and the state it leads to. -/
structure Follows (emit : List (LocalNodeIndex × List Nat))
    (trace : List (Event V × RawProcessingResult V)) (union : Union V) : Prop where
  unionAll : UnionAll emit union
  noPieces : union.replayPieces = []
  valid : (progressOf emit (trace.map Prod.fst)).Valid emit
  waits : Waits emit (progressOf emit (trace.map Prod.fst)) union.fullWaitState
  begun : fullReplays trace ≠ [] ↔
    (progressOf emit (trace.map Prod.fst)).started.card = emit.length
  sent : fullReplays trace ≠ [] → delivered trace = (progressOf emit (trace.map Prod.fst)).owed
  flags : if (progressOf emit (trace.map Prod.fst)).finished.card = emit.length then
      ∃ front rows, fullReplays trace = front ++ [(rows, true)] ∧ ∀ replay ∈ front, replay.2 = false
    else ∀ replay ∈ fullReplays trace, replay.2 = false
  late : EveryStep (fun earlier entry => isFullReplay entry.2 →
    ∀ parent ∈ parents emit,
      parent ∈ (progressOf emit (earlier.map Prod.fst ++ [entry.1])).started) trace

variable (hashing : Hashing V) {union : Union V}

section

variable (keyCols : Tag → List Nat) (nodup : (parents emit).Nodup)

include nodup

/-- An update keeps the operator in step with the parents. -/
theorem Follows.update (follows : Follows emit trace union)
    (isParent : sender ∈ parents emit) (batch : List (Record V)) :
    ∃ output next, Union.step hashing keyCols union (.update sender batch) = .ok (output, next) ∧
      Follows emit (trace ++ [(.update sender batch, output)]) next := by
  obtain ⟨fullWaitState, stepped, waits⟩ := onUpdate_full_spec hashing keyCols follows.unionAll
    follows.noPieces batch isParent follows.waits
  have progressNow : progressOf emit ((trace ++ [(Event.update sender batch,
      RawProcessingResult.regular { results := project (emitOf emit sender) batch })]).map
        Prod.fst) = (progressOf emit (trace.map Prod.fst)).after emit (.update sender batch) := by
    simp
  have sameReplays : fullReplays (trace ++ [(Event.update sender batch,
      RawProcessingResult.regular { results := project (emitOf emit sender) batch })]) =
        fullReplays trace := by
    simp [fullReplays]
  refine ⟨_, _, stepped, ?_⟩
  exact
    { unionAll := ⟨follows.unionAll.emits, follows.unionAll.keepsDuplicates,
        follows.unionAll.requires⟩
      noPieces := follows.noPieces
      valid := by
        rw [progressNow]
        exact follows.valid.after isParent
      waits := by rwa [progressNow]
      begun := by
        rw [progressNow, sameReplays, Progress.started_after_update]
        exact follows.begun
      sent := by
        rw [progressNow, sameReplays]
        intro begun
        have known : sender ∈ (progressOf emit (trace.map Prod.fst)).started :=
          (card_eq_iff nodup follows.valid.startedParents).mp (follows.begun.mp begun)
            sender isParent
        rw [delivered_concat_of_begun begun, follows.sent begun, after, if_pos known]
        rfl
      flags := by
        rw [progressNow, sameReplays, Progress.finished_after_update]
        exact follows.flags
      late := everyStep_concat.mpr ⟨follows.late, fun isReplay => by
        simp [isFullReplay] at isReplay⟩ }

section

variable (several : 2 ≤ emit.length) (follows : Follows emit trace union)

include several follows

/-- So does a piece of a full replay. -/
theorem Follows.full
    (admitted : (progressOf emit (trace.map Prod.fst)).Admits emit (.full sender rows last)) :
    ∃ output next, Union.step hashing keyCols union (.full sender rows last) =
        .ok (output, next) ∧
      Follows emit (trace ++ [(.full sender rows last, output)]) next := by
  obtain ⟨fullWaitState, stepped, waits⟩ := onFull_spec hashing keyCols nodup several
    follows.unionAll follows.valid admitted follows.waits
  have validAfter := follows.valid.after admitted
  have notDone := follows.valid.finished_ne nodup admitted.1 admitted.2
  have flags := follows.flags
  rw [if_neg notDone] at flags
  set before := progressOf emit (trace.map Prod.fst) with beforeEq
  set after := before.after emit (.full sender rows last) with afterEq
  set output := fullOutput emit before after (project (emitOf emit sender) rows) with outputEq
  have progressNow : progressOf emit ((trace ++ [(Event.full sender rows last, output)]).map
      Prod.fst) = after := by
    simp [afterEq, beforeEq]
  have unionAll : UnionAll emit { union with fullWaitState } :=
    ⟨follows.unionAll.emits, follows.unionAll.keepsDuplicates, follows.unionAll.requires⟩
  refine ⟨output, _, stepped, ?_⟩
  by_cases begun : after.started.card = emit.length
  · rw [fullOutput, if_pos begun] at outputEq
    have replaysNow : fullReplays (trace ++ [(Event.full sender rows last, output)]) =
        fullReplays trace ++ [(if before.started.card = emit.length then
          project (emitOf emit sender) rows else after.owed,
            decide (after.finished.card = emit.length))] := by
      simp [fullReplays, outputEq]
    exact
      { unionAll := unionAll
        noPieces := follows.noPieces
        valid := by rwa [progressNow]
        waits := by rwa [progressNow]
        begun := by
          rw [progressNow, replaysNow]
          exact iff_of_true (by simp) begun
        sent := by
          intro _
          rw [progressNow]
          by_cases begunBefore : before.started.card = emit.length
          · rw [delivered_concat_of_begun (follows.begun.mpr begunBefore),
              follows.sent (follows.begun.mpr begunBefore), outputEq, if_pos begunBefore]
            rfl
          · have notYet : fullReplays trace = [] := by
              by_contra some
              exact begunBefore (follows.begun.mp some)
            rw [delivered, List.dropWhile_append, (dropWhile_eq_nil_iff trace).mpr notYet, outputEq,
              if_neg begunBefore]
            simp [isFullReplay, sentRecords]
        flags := by
          rw [progressNow, replaysNow]
          by_cases done : after.finished.card = emit.length
          · rw [if_pos done, decide_eq_true done]
            exact ⟨_, _, rfl, flags⟩
          · rw [if_neg done, decide_eq_false done]
            intro replay mem
            rcases List.mem_append.mp mem with old | new
            · exact flags replay old
            · rw [List.mem_singleton.mp new]
        late := everyStep_concat.mpr ⟨follows.late, fun _ => by
          rw [progressOf_concat]
          exact (card_eq_iff nodup validAfter.startedParents).mp begun⟩ }
  · rw [fullOutput, if_neg begun] at outputEq
    have running : after.finished.card ≠ emit.length :=
      fun done => begun (validAfter.started_of_finished nodup done)
    have replaysNow : fullReplays (trace ++ [(Event.full sender rows last, output)]) =
        fullReplays trace := by
      simp [fullReplays, outputEq]
    have notYet : fullReplays trace = [] := by
      by_contra some
      have everyone := (card_eq_iff nodup follows.valid.startedParents).mp (follows.begun.mp some)
      refine begun ((card_eq_iff nodup validAfter.startedParents).mpr fun parent isParent => ?_)
      exact Finset.mem_insert_of_mem (everyone parent isParent)
    exact
      { unionAll := unionAll
        noPieces := follows.noPieces
        valid := by rwa [progressNow]
        waits := by rwa [progressNow]
        begun := by
          rw [progressNow, replaysNow]
          exact iff_of_false (by simp [notYet]) begun
        sent := by simp [replaysNow, notYet]
        flags := by
          rw [progressNow, replaysNow, if_neg running]
          exact flags
        late := everyStep_concat.mpr ⟨follows.late, fun isReplay => by
          simp [outputEq, isFullReplay] at isReplay⟩ }

theorem Follows.step (admitted : (progressOf emit (trace.map Prod.fst)).Admits emit event) :
    ∃ output next, Union.step hashing keyCols union event = .ok (output, next) ∧
      Follows emit (trace ++ [(event, output)]) next := by
  cases event with
  | update sender batch => exact follows.update hashing keyCols nodup admitted batch
  | full sender rows last => exact follows.full hashing keyCols nodup several admitted
  | piece sender rows request => exact admitted.elim

end

end

/-- An event of a full replay through the union. -/
def FullWellFormed (emit : List (LocalNodeIndex × List Nat)) (earlier : List (Event V))
    (event : Event V) : Prop :=
  (progressOf emit earlier).Admits emit event

omit [LinearOrder V] in
theorem new_follows (several : 2 ≤ emit.length) (created : Union.new emit .unionAll = .ok union) :
    Follows emit [] union := by
  obtain rfl := eq_of_new created
  exact
    { unionAll := ⟨rfl, rfl, rfl⟩
      noPieces := rfl
      valid := ⟨by simp [progressOf], by simp [progressOf]⟩
      waits := .inl ⟨rfl, rfl⟩
      begun := by
        simp [fullReplays, progressOf]
        omega
      sent := by simp [fullReplays]
      flags := by
        rw [if_neg (by simp [progressOf]; omega)]
        simp [fullReplays]
      late := everyStep_nil }

/-- Every interleaving of one full replay for each parent with updates: the
messages sent on carry `last` once, at the end; none is sent before every
parent has begun; from the first one on exactly what is owed is sent; and the
operator is ready for the next replay. -/
theorem run_fullReplay (hashing : Hashing V) {union : Union V}
    (created : Union.new emit .unionAll = .ok union) (distinctParents : (parents emit).Nodup)
    (several : 2 ≤ emit.length) {events : List (Event V)}
    (wellFormed : EveryStep (FullWellFormed emit) events)
    (finished : ∀ parent ∈ parents emit, parent ∈ (progressOf emit events).finished) :
    ∃ trace final, run (step hashing keyCols) union events = .ok (trace, final) ∧
      trace.map Prod.fst = events ∧
      (∃ front rows, fullReplays trace = front ++ [(rows, true)] ∧
        ∀ replay ∈ front, replay.2 = false) ∧
      EveryStep (fun earlier entry => isFullReplay entry.2 → ∀ parent ∈ parents emit,
        parent ∈ (progressOf emit (earlier.map Prod.fst ++ [entry.1])).started) trace ∧
      delivered trace = (progressOf emit events).owed ∧
      final.fullWaitState = .none := by
  obtain ⟨trace, final, ran, rfl, follows⟩ := run_invariant (step hashing keyCols)
    (Follows emit)
    (fun trace union event follows admitted =>
      follows.step hashing keyCols distinctParents several admitted)
    (new_follows several created) wellFormed
  have done : (progressOf emit (trace.map Prod.fst)).finished.card = emit.length :=
    (card_eq_iff distinctParents
      (follows.valid.finishedStarted.trans follows.valid.startedParents)).mpr finished
  have begun := follows.begun.mpr (follows.valid.started_of_finished distinctParents done)
  have flags := follows.flags
  rw [if_pos done] at flags
  refine ⟨trace, final, ran, rfl, flags, follows.late, follows.sent begun, ?_⟩
  cases state : final.fullWaitState with
  | none => rfl
  | ongoing started count buffered =>
    have waits := follows.waits
    rw [state] at waits
    obtain ⟨_, counted, running, _⟩ := waits
    exact absurd (counted.trans done) running

/-- The second parent begins and ends with one piece while the first, with an
update of its own held back, is still at it. -/
def interleaved : List (Event Nat) :=
  [.full 0 [.positive [.value 1]] false, .update 0 [.positive [.value 2]],
    .full 1 [.positive [.value 3]] true, .update 1 [.positive [.value 4]],
    .full 0 [.positive [.value 5]] true]

theorem run_fullReplay_interleaved :
    ∃ union, Union.new twoParents .unionAll = .ok union ∧
      ∃ trace final, run (step .inInsertionOrder fun _ => []) union interleaved = .ok (trace, final) ∧
        trace.map Prod.fst = interleaved ∧
        (∃ front rows, fullReplays trace = front ++ [(rows, true)] ∧
          ∀ replay ∈ front, replay.2 = false) ∧
        EveryStep (fun earlier entry => isFullReplay entry.2 → ∀ parent ∈ parents twoParents,
          parent ∈ (progressOf twoParents (earlier.map Prod.fst ++ [entry.1])).started) trace ∧
        delivered trace = (progressOf twoParents interleaved).owed ∧
        final.fullWaitState = .none := by
  refine ⟨_, rfl, run_fullReplay .inInsertionOrder rfl (by decide) (by decide) ?_ (by decide)⟩
  rw [show interleaved = (((([] ++ [.full 0 [.positive [.value 1]] false]) ++
      [.update 0 [.positive [.value 2]]]) ++ [.full 1 [.positive [.value 3]] true]) ++
      [.update 1 [.positive [.value 4]]]) ++ [.full 0 [.positive [.value 5]] true] from rfl]
  simp only [everyStep_concat, everyStep_nil, true_and]
  exact ⟨⟨⟨⟨⟨by decide, by decide⟩, (by decide : 0 ∈ parents twoParents)⟩, by decide, by decide⟩,
    (by decide : 1 ∈ parents twoParents)⟩, by decide, by decide⟩

end

end ReadySet.Ops.Union
