import ReadySet.Ops.TopK.Updates

/-!
Owns batches for a partial own state: what the groups whose lookup misses cause, and when
the groups of a batch are handled independently of each other. The number of rows of the
group filled last stands while the groups that miss after it are finished, so that one of
them may be taken for a full group that has lost its rows.
-/

namespace ReadySet.Ops.TopK

open Data Library Dataflow List

universe u

variable {V : Type u} [LinearOrder V] (topk : TopK) (containers : Containers V topk.order)
  (replay : ReplayContext V) (nodes : DomainNodes V) (states : StateMap V) (ownState : State V)

/-- The parent has no rows of a group. -/
def ParentEmpty (key : Key V) : Prop :=
  ∃ records, ingredientLookup topk.src topk.groupBy key nodes states .strict =
    .ok (.records records) ∧ collectRows records = .ok []

/-- No group that misses is finished with the `k` rows of the group filled last before it,
unless the parent has no rows of it. -/
def Undisturbed : Nat → List (Key V × List (Record V)) → Prop
  | _, [] => True
  | stale, group :: later =>
    match ownState.lookup topk.groupBy group.1 with
    | .some rows => Undisturbed rows.length later
    | .missing => (stale = topk.k → topk.k = 0 ∨ topk.ParentEmpty nodes states group.1) ∧
        Undisturbed stale later

def resultsOf : ReadySetResult (ProcessingResult V) → List (Record V)
  | .ok result => result.results
  | .error _ => []

/-- What is emitted for the records of a group alone, if its lookup does not miss. -/
def outputOf (group : Key V × List (Record V)) : List (Record V) :=
  match ownState.lookup topk.groupBy group.1 with
  | .some _ => resultsOf (topk.onInput containers group.2 replay nodes states)
  | .missing => []

/-- One miss for each record of a group whose lookup misses. -/
def missesOf (group : Key V × List (Record V)) : List (Miss V) :=
  match ownState.lookup topk.groupBy group.1 with
  | .some _ => []
  | .missing => group.2.map (@missOf V _ topk replay)

/-- The records of every filled group are handled without an error when they come alone. -/
def FilledSucceed (batch : List (Record V)) : Prop :=
  ∀ group ∈ topk.groupsOf batch, ownState.lookup topk.groupBy group.1 ≠ .missing →
    ∃ result, topk.onInput containers group.2 replay nodes states = .ok result

/-- The batch causes what its groups cause alone. -/
def Separates (batch : List (Record V)) : Prop :=
  ∃ result, topk.onInput containers batch replay nodes states = .ok result ∧
    result.results = (topk.groupsOf batch).flatMap
      (topk.outputOf containers replay nodes states ownState) ∧
    result.misses = (topk.groupsOf batch).flatMap (topk.missesOf replay ownState)

variable {topk states ownState} {key : Key V} {loop : LoopState V}

theorem emitGroup_eq_nil_iff {current : List (CurrentRecord V)} (allNew : oldRows current = 0) :
    emitGroup 0 (topk.swapTies 0 (containers.heap.intoSortedVec.sort current).reverse) = [] ↔
      current.length = 0 := by
  obtain ⟨dropped, parts, old, size, _⟩ := topk.rowsOf_top containers current 0
  obtain rfl : dropped = 0 := Multiset.card_eq_zero.mp (by simpa using size)
  have emitted := applyAll_emitGroup 0
    (topk.swapTies 0 (containers.heap.intoSortedVec.sort current).reverse)
  rw [old, allNew, ← add_zero (rowsOf _), parts] at emitted
  constructor
  · intro nothing
    rw [nothing, applyAll_nil, Option.some.injEq] at emitted
    rw [← card_rowsOf, ← emitted, Multiset.card_zero]
  · intro none
    rw [length_eq_zero_iff.mp none, (containers.heap.intoSortedVec.perm []).eq_nil]
    rfl

/-- A group without rows at its end emits nothing exactly if it is not topped up. -/
theorem postGroup_nil_iff {stale : Nat} :
    (∃ lookup, topk.postGroup containers [] key stale states nodes = .ok ([], lookup)) ↔
      (stale = topk.k → topk.k = 0 ∨ topk.ParentEmpty nodes states key) := by
  rw [postGroup, backfillGroup, length_nil, Nat.zero_sub]
  by_cases full : stale = topk.k ∧ 0 < stale
  · obtain ⟨rfl, pos⟩ := full
    rw [if_pos ⟨rfl, pos⟩, ParentEmpty]
    rcases ingredientLookup topk.src topk.groupBy key nodes states .strict with
      error | records | _
    · simp [pos.ne']
    · rcases collected : collectRows records with error | rows
      · simp [collected, pos.ne']
      · have perm := containers.heap.extend_perm [] ((topk.backfill containers rows 0).map fun row =>
          ({ row, isNew := true } : CurrentRecord V))
        rw [nil_append] at perm
        have emits := emitGroup_eq_nil_iff containers ((oldRows_perm perm).trans (oldRows_map_new _))
        have noRows : (topk.backfill containers rows 0).length = 0 ↔ rows = [] := by
          simp [backfill, (containers.sortUnstable.perm rows).length_eq, pos.ne']
        rw [perm.length_eq, length_map, noRows] at emits
        simp [collected, emits, pos.ne']
    · simp [pos.ne']
  · rw [if_neg full]
    have emits := (@emitGroup_eq_nil_iff V _ topk containers [] rfl).mpr rfl
    simp only [pure_eq_ok, ok_bind, emits]
    refine iff_of_true ⟨none, rfl⟩ fun isFull => .inl ?_
    omega

variable {containers replay nodes}

theorem processGroup_missed (empty : loop.current = []) {records : List (Record V)}
    (some : key ≠ []) (missing : ownState.lookup topk.groupBy key = .missing)
    (keyed : ∀ record ∈ records, topk.projectGroup record.value = .ok key) :
    topk.processGroup containers replay nodes states ownState loop (key, records) =
      topk.postGroup containers [] key loop.originalGroupLen states nodes >>= fun output => .ok
        { loop with
          groupKey := key
          missed := true
          current := []
          out := loop.out ++ output.1
          misses := loop.misses ++ records.map (@missOf V _ topk replay)
          lookups := if replay.key.isSome then loop.lookups ++ output.2.toList
            else loop.lookups } := by
  simp only [processGroup, startGroup, empty, missing, isEmpty_nil, if_true, pure_eq_ok, ok_bind]
  rw [foldlM_onLoop_missed keyed rfl]
  simp only [ok_bind, finishGroup, if_neg some]
  rfl

section

variable {batch : List (Record V)}
  (columns : ∀ record ∈ batch, ∀ col ∈ topk.groupBy, col < record.value.length)
  (ownHere : states topk.ourIndex = some ownState)

include columns ownHere

variable {group : Key V × List (Record V)}
  (succeed : topk.FilledSucceed containers replay nodes states ownState batch)
include succeed

/-- The records of a filled group alone give what the group emits. -/
theorem groupOutput_eq (mem : group ∈ topk.groupsOf batch) {rows : List (Row V)}
    (found : ownState.lookup topk.groupBy group.1 = .some rows) :
    ∃ lookup, topk.groupOutput containers nodes states group.1 rows group.2 =
      .ok (topk.outputOf containers replay nodes states ownState group, lookup) := by
  obtain ⟨result, ran⟩ := succeed group mem (by rw [found]; nofun)
  have isOutput : topk.outputOf containers replay nodes states ownState group = result.results := by
    simp [outputOf, found, ran, resultsOf]
  have keyed := groupsOf_keyed columns mem
  have columnsAlone : ∀ record ∈ group.2, ∀ col ∈ topk.groupBy, col < record.value.length := by
    intro record present
    rw [groupsOf_records columns mem] at present
    exact columns record (mem_filter.mp present).1
  have alone : topk.groupsOf group.2 = [group] :=
    groupsOf_of_keyed (ne_nil_of_mem_groupsOf mem) fun record present => by
      rw [keyed record present]
      rfl
  rw [onInput_eq columnsAlone containers replay nodes ownHere, alone, foldlM_cons,
    processGroup_hit rfl (groupsOf_key_ne_nil columns mem) found keyed] at ran
  obtain ⟨_, stepped, ran⟩ := bind_eq_ok.mp ran
  obtain ⟨_, stepped, finished⟩ := bind_eq_ok.mp stepped
  obtain ⟨emitted, output, rfl⟩ := map_eq_ok.mp stepped
  obtain rfl := Except.ok.inj finished
  obtain rfl := Except.ok.inj ran
  exact ⟨emitted.2, by rw [isOutput]; exact output⟩

section

variable {groups : List (Key V × List (Record V))} (listed : groups ⊆ topk.groupsOf batch)
  (empty : loop.current = [])

include listed empty

/-- What the groups emit is at least what they emit alone. -/
theorem length_le_foldlM {done : LoopState V}
    (ran : groups.foldlM (topk.processGroup containers replay nodes states ownState) loop = .ok done) :
    loop.out.length + (groups.flatMap
      (topk.outputOf containers replay nodes states ownState)).length ≤ done.out.length := by
  induction groups generalizing loop with
  | nil =>
    obtain rfl := Except.ok.inj ran
    simp
  | cons group groups ih =>
    obtain ⟨mem, listedLater⟩ := cons_subset.mp listed
    have some := groupsOf_key_ne_nil columns mem
    have keyed := groupsOf_keyed columns mem
    rw [foldlM_cons] at ran
    cases found : ownState.lookup topk.groupBy group.1 with
    | some rows =>
      obtain ⟨lookup, output⟩ := groupOutput_eq columns ownHere succeed mem found
      rw [processGroup_hit empty some found keyed, output] at ran
      have later := ih listedLater rfl ran
      simp only [flatMap_cons, length_append] at later ⊢
      omega
    | missing =>
      rw [processGroup_missed empty some found keyed] at ran
      obtain ⟨_, stepped, ran⟩ := bind_eq_ok.mp ran
      obtain ⟨_, _, rfl⟩ := map_eq_ok.mp stepped
      have later := ih listedLater rfl ran
      simp only [flatMap_cons, length_append, outputOf, found, length_nil] at later ⊢
      omega

/-- Groups of a batch, from a loop whose last group is finished. -/
theorem foldlM_separates_iff :
    (∃ done, groups.foldlM (topk.processGroup containers replay nodes states ownState) loop =
        .ok done ∧
      done.out = loop.out ++ groups.flatMap
        (topk.outputOf containers replay nodes states ownState) ∧
      done.misses = loop.misses ++ groups.flatMap (topk.missesOf replay ownState)) ↔
      topk.Undisturbed nodes states ownState loop.originalGroupLen groups := by
  induction groups generalizing loop with
  | nil => exact iff_of_true ⟨loop, rfl, by simp, by simp⟩ trivial
  | cons group groups ih =>
    obtain ⟨mem, listedLater⟩ := cons_subset.mp listed
    have some := groupsOf_key_ne_nil columns mem
    have keyed := groupsOf_keyed columns mem
    rw [foldlM_cons]
    cases found : ownState.lookup topk.groupBy group.1 with
    | some rows =>
      obtain ⟨lookup, output⟩ := groupOutput_eq columns ownHere succeed mem found
      rw [processGroup_hit empty some found keyed, output, Undisturbed]
      simp only [flatMap_cons, ← append_assoc, missesOf, found, append_nil]
      exact ih listedLater rfl
    | missing =>
      rw [processGroup_missed empty some found keyed, Undisturbed, found]
      simp only [← postGroup_nil_iff containers]
      cases output : topk.postGroup containers [] group.1 loop.originalGroupLen states nodes with
      | error error => exact iff_of_false (by simp) (by simp)
      | ok result =>
        obtain ⟨emitted, lookup⟩ := result
        by_cases nothing : emitted = []
        · subst nothing
          refine Iff.trans ?_ (and_iff_right ⟨lookup, rfl⟩).symm
          simp only [flatMap_cons, ← append_assoc, outputOf, missesOf, found]
          exact ih listedLater rfl
        · refine iff_of_false ?_ (by simp [nothing])
          rintro ⟨done, ran, out, _⟩
          have longer := length_le_foldlM columns ownHere succeed listedLater rfl ran
          have length := congrArg length out
          simp only [flatMap_cons, length_append, outputOf, found, length_nil] at longer length
          exact nothing (length_eq_zero_iff.mp (by omega))

end

omit succeed

variable (containers replay nodes) in
/-- **The groups of a batch are handled independently** exactly if no group that misses is
disturbed, where the filled groups do not fail by themselves. -/
theorem onInput_separates_iff :
    (topk.FilledSucceed containers replay nodes states ownState batch →
        topk.Separates containers replay nodes states ownState batch) ↔
      (topk.FilledSucceed containers replay nodes states ownState batch →
        topk.Undisturbed nodes states ownState 0 (topk.groupsOf batch)) := by
  refine forall_congr' fun succeed => ?_
  rw [Separates, onInput_eq columns containers replay nodes ownHere]
  refine Iff.trans ?_ (foldlM_separates_iff columns ownHere succeed
    (List.Subset.refl _) (rfl : ({} : LoopState V).current = []))
  cases (topk.groupsOf batch).foldlM (topk.processGroup containers replay nodes states ownState)
      {} with
  | error error => simp
  | ok done => simp

end

/-! ## A group after a full one -/

/-- Group 0 is full, group 1 is not filled. -/
def fullOwn : State Nat where
  isPartial := true
  lookup _ key := if key = [.value 0] then .some drainedOwn else .missing
  lookupWeak _ _ := none

def fullStates : StateMap Nat
  | 0 => some (State.ofTable [[.value 1, .value 5]])
  | 1 => some fullOwn
  | _ => none

def fullBatch : List (Record Nat) :=
  [.positive [.value 0, .value 8], .positive [.value 1, .value 5]]

/-- The row of group 1 is emitted although its lookup misses. -/
theorem fullBatch_not_separates :
    ¬ (drained.FilledSucceed drainedContainers .none .none fullStates fullOwn fullBatch →
      drained.Separates drainedContainers .none .none fullStates fullOwn fullBatch) := by
  intro separates
  obtain ⟨result, ran, results, _⟩ := separates fun group member filled => by
    fin_cases member
    · exact ⟨{}, by decide⟩
    · exact absurd rfl filled
  have ranSo : drained.onInput drainedContainers fullBatch .none .none fullStates = .ok
      { results := [.positive [.value 1, .value 5]]
        misses := [@missOf Nat _ drained .none (.positive [.value 1, .value 5])] } := by decide
  obtain rfl := Except.ok.inj (ran.symm.trans ranSo)
  revert results
  decide

theorem onInput_separates_iff_fullBatch :
    (drained.FilledSucceed drainedContainers .none .none fullStates fullOwn fullBatch →
        drained.Separates drainedContainers .none .none fullStates fullOwn fullBatch) ↔
      (drained.FilledSucceed drainedContainers .none .none fullStates fullOwn fullBatch →
        drained.Undisturbed .none fullStates fullOwn 0 (drained.groupsOf fullBatch)) :=
  onInput_separates_iff drainedContainers .none .none (by decide) rfl

end ReadySet.Ops.TopK
