import ReadySet.Ops.Union.FullReplay

/-!
Owns what a bag union of two parents emits over a whole run of updates: for each row
the copies of the parent with more of them, with the lead of that parent in the state.
-/

namespace ReadySet.Ops

open Data Library Dataflow List Function

universe u

/-- The side with more copies and how many more. -/
def standing (side : Side) (own other : Nat) : Option (Side × Nat) :=
  if other < own then some (side, own - other)
  else if own < other then some (otherSide side, other - own)
  else none

theorem standing_swap {side : Side} (own other : Nat) :
    standing (otherSide side) other own = standing side own other := by
  have twice : otherSide (otherSide side) = side := by cases side <;> rfl
  simp only [standing]
  grind

/-- What `BagUnionState::process` makes of the entry of a row. -/
def onEntry (sender : Side) (positive : Bool) : Option (Side × Nat) → Bool × Option (Side × Nat)
  | some (rowSide, size) =>
    let size := if positive == (rowSide == sender) then size + 1 else size - 1
    (rowSide == sender, if size = 0 then none else some (rowSide, size))
  | none => if positive then (true, some (sender, 1)) else (false, some (otherSide sender, 1))

/-- A record is emitted exactly when the maximum changes. -/
theorem onEntry_standing (sender : Side) (pos : Bool) {own after : Nat} (other : Nat)
    (moves : (after : ℤ) = own + if pos then 1 else -1) :
    onEntry sender pos (standing sender own other) =
        (decide (max after other ≠ max own other), standing sender after other) := by
  have nodup : (otherSide sender == sender) = false := by cases sender <;> rfl
  all_goals
    rcases lt_trichotomy own other with less | rfl | more
    · simp [standing, onEntry]
      grind
    · simp [standing, onEntry]
      grind
    · simp [standing, onEntry, more]
      grind

section

variable {V : Type u} [LinearOrder V] {hash : Row V → Nat} {state : BagUnionState}
  {contents : Side → Multiset (Row V)} {emitted : List (Record V)}

/-- Each row has been emitted as often as the side with more copies has it, and the state
holds that side and how many more it has. -/
def BagUnionState.Follows (hash : Row V → Nat) (contents : Side → Multiset (Row V))
    (emitted : List (Record V)) (state : BagUnionState) : Prop :=
  ∀ row, net emitted row = max ((contents .left).count row) ((contents .right).count row) ∧
    state (hash row) = standing .left ((contents .left).count row) ((contents .right).count row)

theorem BagUnionState.follows_iff (sender : Side) : state.Follows hash contents emitted ↔
    ∀ row, net emitted row =
        max ((contents sender).count row) ((contents (otherSide sender)).count row) ∧
      state (hash row) = standing sender ((contents sender).count row)
        ((contents (otherSide sender)).count row) := by
  cases sender with
  | left => rfl
  | right =>
    refine forall_congr' fun row => ?_
    rw [← standing_swap, max_comm]
    rfl

omit [LinearOrder V] in
theorem BagUnionState.process_eq (sender : Side) (record : Record V) :
    state.process hash sender record =
      let result := onEntry sender record.isPositive (state (hash record.value))
      (result.1, update state (hash record.value) result.2) := by
  simp only [process]
  cases state (hash record.value) with
  | some entry => rfl
  | none => cases record.isPositive <;> rfl

variable {sender : Side} {after : Multiset (Row V)}

section

variable (follows : state.Follows hash contents emitted) (injective : Function.Injective hash)

include follows injective

/-- One record of a parent. -/
theorem BagUnionState.Follows.process {record : Record V}
    (valid : applyOne (contents sender) record = some after) :
    ∃ emits next, state.process hash sender record = (emits, next) ∧
      next.Follows hash (update contents sender after)
        (emitted ++ if emits then [record] else []) := by
  have applied : applyAll (contents sender) [record] = some after := by
    rw [applyAll, valid]
    rfl
  have counted := count_applyAll applied
  have moves : (after.count record.value : ℤ) =
      (contents sender).count record.value + if record.isPositive then 1 else -1 := by
    have here := counted record.value
    cases record <;> simp at here ⊢ <;> omega
  rw [follows_iff sender] at follows
  have entry := onEntry_standing sender record.isPositive
    ((contents (otherSide sender)).count record.value) moves
  have ne : otherSide sender ≠ sender := by cases sender <;> decide
  refine ⟨_, _, state.process_eq sender record, (follows_iff sender).mpr fun row => ?_⟩
  rw [update_self, update_of_ne ne, (follows record.value).2, entry, net,
    weight_append, Pi.add_apply, ← net, (follows row).1]
  by_cases same : row = record.value
  · subst same
    refine ⟨?_, update_self ..⟩
    simp only [decide_eq_true_eq]
    split_ifs with changes
    · cases record <;> simp [unit_apply] at changes moves ⊢ <;> omega
    · rw [not_not.mp changes]
      exact add_zero _
  · have unmoved : after.count row = (contents sender).count row := by
      have there := counted row
      cases record <;> simp only [Signed.value] at same <;> simpa [Ne.symm same] using there
    rw [update_of_ne (injective.ne same), unmoved]
    refine ⟨?_, (follows row).2⟩
    split_ifs <;> simp [unit_apply, same]

theorem BagUnionState.Follows.retainBag {records : List (Record V)}
    (valid : applyAll (contents sender) records = some after) :
    ∃ results next, Union.retainBag hash sender state records = (results, next) ∧
      next.Follows hash (update contents sender after) (emitted ++ results) := by
  induction records generalizing state contents emitted with
  | nil =>
    rw [applyAll_nil, Option.some.injEq] at valid
    rw [← valid, update_eq_self]
    exact ⟨[], state, rfl, emitted.append_nil.symm ▸ follows⟩
  | cons record records ih =>
    obtain ⟨middle, one, rest⟩ := applyAll_cons_eq_some.mp valid
    obtain ⟨emits, next, processed, followsNext⟩ := follows.process injective one
    rw [← update_self sender middle contents] at rest
    obtain ⟨later, final, retained, followsFinal⟩ := ih followsNext rest
    rw [update_idem, append_assoc] at followsFinal
    refine ⟨_, final, ?_, followsFinal⟩
    simp only [Union.retainBag, processed, retained]
    cases emits <;> rfl

end

end

namespace Union

variable {V : Type u} [LinearOrder V] {hashing : Hashing V} {union : Union V}
  {parent : Side → LocalNodeIndex} {columns : Side → List Nat} {rows : Side → Multiset (Row V)}
  {emitted : List (Record V)}

/-- The rows of the parents as the union projects them. -/
def projected (columns : Side → List Nat) (rows : Side → Multiset (Row V)) (side : Side) :
    Multiset (Row V) :=
  (rows side).map fun row => row.clonedIndices (columns side)

/-- A bag union outside of replays that follows its parents. -/
structure FollowsParents (hashing : Hashing V) (parent : Side → LocalNodeIndex)
    (columns : Side → List Nat) (rows : Side → Multiset (Row V)) (emitted : List (Record V))
    (union : Union V) : Prop where
  emit : union.emit = .project [(parent .left, columns .left), (parent .right, columns .right)]
  noPieces : union.replayPieces = []
  noFull : union.fullWaitState = .none
  bag : ∃ bag, union.bagUnionState = some bag ∧
    bag.Follows hashing.hash (projected columns rows) emitted

/-- The records that one side sends. -/
def sentBy (side : Side) (events : List (Side × List (Record V))) : List (Record V) :=
  (events.filter fun event => event.1 = side).flatMap Prod.snd

section

variable (follows : FollowsParents hashing parent columns rows emitted union)
  (injective : Function.Injective hashing.hash) (nodup : parent .left ≠ parent .right)

include follows injective nodup

/-- One update of a parent. -/
theorem FollowsParents.onUpdate {side : Side} {records : List (Record V)}
    {after : Multiset (Row V)} (valid : applyAll (rows side) records = some after) :
    ∃ results next, union.onUpdate hashing (parent side) records = .ok (.regular { results }, next) ∧
      FollowsParents hashing parent columns (update rows side after) (emitted ++ results)
        next := by
  obtain ⟨bag, isBag, bagFollows⟩ := follows.bag
  have updated : update (projected columns rows) side
      (after.map fun row => row.clonedIndices (columns side)) =
        projected columns (update rows side after) :=
    funext fun other => (apply_update (fun side (rows : Multiset (Row V)) =>
      rows.map fun row : Row V => row.clonedIndices (columns side)) rows side after other).symm
  have valid : applyAll (projected columns rows side) (project (columns side) records) = some _ :=
    applyAll_map _ valid
  obtain ⟨results, next, retained, followsNext⟩ := bagFollows.retainBag injective valid
  have found : [(parent .left, columns .left), (parent .right, columns .right)].lookup
      (parent side) = some (columns side) := by
    cases side with
    | left => simp
    | right => simp [lookup_cons, beq_eq_false_iff_ne.mpr nodup.symm]
  have isSide : (if parent side = parent .left then Side.left else Side.right) = side := by
    cases side <;> simp [nodup.symm]
  refine ⟨results, { union with bagUnionState := some next }, ?_,
    ⟨follows.emit, follows.noPieces, follows.noFull, next, rfl, updated ▸ followsNext⟩⟩
  simp [Union.onUpdate, absorbsForFull, follows.noFull, follows.noPieces, onInput, follows.emit,
    found, isBag, isSide, retained]

/-- Any updates of the parents, by induction on them. -/
theorem FollowsParents.run (keyCols : Tag → List Nat) {events : List (Side × List (Record V))}
    {after : Side → Multiset (Row V)}
    (valid : ∀ side, applyAll (rows side) (sentBy side events) = some (after side)) :
    ∃ trace final, Library.run (step hashing keyCols) union
        (events.map fun event => .update (parent event.1) event.2) = .ok (trace, final) ∧
      FollowsParents hashing parent columns after
        (emitted ++ trace.flatMap fun entry => sentRecords entry.2) final := by
  induction events generalizing union rows emitted with
  | nil =>
    obtain rfl : rows = after := funext fun side => Option.some.inj (valid side)
    exact ⟨[], union, rfl, emitted.append_nil.symm ▸ follows⟩
  | cons event events ih =>
    have here := valid event.1
    rw [sentBy, filter_cons_of_pos (by simp), flatMap_cons, applyAll_append,
      Option.bind_eq_some_iff] at here
    obtain ⟨middle, first, rest⟩ := here
    obtain ⟨results, next, updated, followsNext⟩ := follows.onUpdate injective nodup first
    have validLater : ∀ side, applyAll (update rows event.1 middle side)
        (sentBy side events) = some (after side) := by
      intro side
      by_cases same : event.1 = side
      · subst same
        rw [update_self]
        exact rest
      · rw [update_of_ne (Ne.symm same)]
        simpa [sentBy, same] using valid side
    obtain ⟨trace, final, ran, followsFinal⟩ := ih followsNext validLater
    rw [append_assoc] at followsFinal
    exact ⟨_, final, run_cons_ok _ updated ran, followsFinal⟩

end

/-- **A bag union of two parents** has emitted, after any valid updates of them, each row as
often as the parent with more copies has it, and stores that parent with its lead. -/
theorem bagUnion_run (hashing : Hashing V) (injective : Function.Injective hashing.hash)
    (distinct : parent .left ≠ parent .right) (keyCols : Tag → List Nat)
    (isNew : Union.new [(parent .left, columns .left), (parent .right, columns .right)] .bagUnion =
      .ok union) {events : List (Side × List (Record V))}
    (valid : ∀ side, applyAll 0 (sentBy side events) = some (rows side)) :
    ∃ trace final bag, Library.run (step hashing keyCols) union
        (events.map fun event => .update (parent event.1) event.2) = .ok (trace, final) ∧
      final.bagUnionState = some bag ∧
      ∀ row, net (trace.flatMap fun entry => sentRecords entry.2) row =
          max ((projected columns rows .left).count row) ((projected columns rows .right).count row) ∧
        bag (hashing.hash row) = standing .left ((projected columns rows .left).count row)
          ((projected columns rows .right).count row) := by
  have start : FollowsParents hashing parent columns (fun _ => 0) [] union := by
    rw [Union.new, if_neg (by simp)] at isNew
    split at isNew
    · contradiction
    · obtain rfl := Except.ok.inj isNew
      exact ⟨rfl, rfl, rfl, _, rfl, fun row => ⟨rfl, rfl⟩⟩
  obtain ⟨trace, final, ran, follows⟩ := start.run injective distinct keyCols valid
  obtain ⟨bag, isBag, bagFollows⟩ := follows.bag
  exact ⟨trace, final, bag, ran, isBag, bagFollows⟩

/-- A row by the number that encodes its values, with 0 for NULL. -/
def encoded : Hashing ℕ :=
  { Hashing.inInsertionOrder with
    hash := fun row => Encodable.encode (row.map fun
      | .none => 0
      | .value datum => datum + 1) }

theorem encoded_injective : Function.Injective encoded.hash := by
  refine Encodable.encode_injective.comp (map_injective_iff.mpr ?_)
  rintro (_ | left) (_ | right) same
  · rfl
  · simp at same
  · simp at same
  · simpa using same

/-- The second parent has lost one of its rows again and keeps another. -/
theorem bagUnion_run_encoded : ∃ union : Union ℕ,
    Union.new twoParents .bagUnion = .ok union ∧
      ∃ trace final bag, Library.run (step encoded fun _ => []) union
          [.update 0 [.positive [.value 5]],
            .update 1 [.positive [.value 5], .positive [.value 6], .negative [.value 5]]] =
        .ok (trace, final) ∧ final.bagUnionState = some bag ∧
      (∀ row ∈ [[.value 5], [.value 6]],
        net (trace.flatMap fun entry => sentRecords entry.2) row = 1) ∧
      bag (encoded.hash [.value 5]) = some (.left, 1) ∧
      bag (encoded.hash [.value 6]) = some (.right, 1) := by
  refine ⟨_, rfl, ?_⟩
  obtain ⟨trace, final, bag, ran, isBag, holds⟩ :=
    @bagUnion_run ℕ _ _ (fun side => if side = .left then 0 else 1) (fun _ => [0])
      (fun side => if side = .left then {[.value 5]} else {[.value 6]}) encoded encoded_injective
      (by decide) (fun _ => []) rfl
      [(.left, [.positive [.value 5]]),
        (.right, [.positive [.value 5], .positive [.value 6], .negative [.value 5]])]
      (fun side => by cases side <;> decide)
  refine ⟨trace, final, bag, ran, isBag, ?_, (holds [.value 5]).2, (holds [.value 6]).2⟩
  simp only [forall_mem_cons]
  exact ⟨(holds [.value 5]).1, (holds [.value 6]).1, by simp⟩

end Union

end ReadySet.Ops
