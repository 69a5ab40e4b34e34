import ReadySet.Domain.EvictionDependents

/-!
Owns the proof that evictions that are traced leave the domain dependable: one call of
`triggerDownstreamEvictions` takes the keys that depend on the evicted ones out of the
destinations of the paths, and the calls it makes do so for the keys that depend on
these. The induction is on the fuel, which bounds the height of the node; inside of a
call it is on the list of the dependent paths that are left.
-/

namespace ReadySet.Domain

open Dataflow DataflowState

section

variable {K : Type} {layout : Layout} {height : LocalNodeIndex → Nat}

/-! ## Evicting the keys of a dependent path -/

section

variable [DecidableEq K] {domain : DomainState K} {dep : Dependent K}
  {rest : List (Dependent K)} {pending : Tag → ReplayPath → K → Prop} {state : NodeState K}

/-- What was pending, and the keys of dependents that are still to be evicted. -/
abbrev OrListed (pending : Tag → ReplayPath → K → Prop) (found : List (Dependent K)) :
    Tag → ReplayPath → K → Prop :=
  fun tag path key => pending tag path key ∨ Listed found tag key

omit [DecidableEq K] in
theorem DependableExcept.gone (wf : WellFormed layout height domain)
    (isPath : layout.get dep.tag = some dep.path)
    (gone : dep.path.IsLocal → ∀ key ∈ dep.keys, ¬AtDestination layout domain dep.path key)
    (holds : DependableExcept layout domain (OrListed pending (dep :: rest))) :
    DependableExcept layout domain (OrListed pending rest) := by
  intro entry mem isLocal key filled
  rcases holds entry mem isLocal key filled with
    justified | isPending | ⟨listed, isListed, sameTag, isKey⟩
  · exact .inl justified
  · exact .inr (.inl isPending)
  · rcases List.mem_cons.mp isListed with same | later
    · subst same
      have known := wf.get mem
      rw [← sameTag, isPath, Option.some.injEq] at known
      exact absurd filled (known ▸ gone (known ▸ isLocal) key isKey)
    · exact .inr (.inr ⟨listed, later, sameTag, isKey⟩)

theorem walkPath_gone (isReader : layout.isReader dep.path.lastSegment.node = true) :
    ∀ key ∈ dep.keys, ¬AtDestination layout
      (walkPath layout dep.path.path dep.keys domain) dep.path key := by
  intro key isKey filled
  rw [AtDestination, if_pos isReader] at filled
  exact walkPath_evicts dep.keys (List.mem_append_right _ (List.mem_singleton_self _)) isReader
    isKey filled

/-- What is left to trigger after the eviction of the keys of a dependent path. -/
def Settled (layout : Layout) (dependent : Dependent K) (pending : Tag → ReplayPath → K → Prop)
    (domain : DomainState K) : Option (Index × LocalNodeIndex) → Prop
  | none => DependableExcept layout domain pending
  | some (index, node) =>
    dependent.path.IsLocal ∧ layout.isReader node = false ∧
      index = dependent.path.lastSegment.partialIndex ∧ node = dependent.path.lastSegment.node ∧
      DependableExcept layout domain fun tag path key =>
        pending tag path key ∨ Direct domain node index dependent.keys tag path key

/-- The readers of a path are evicted from first. -/
abbrev walked (layout : Layout) (dependent : Dependent K) (domain : DomainState K) : DomainState K :=
  walkPath layout dependent.path.path dependent.keys domain

theorem evictAlong_start {index : Index} {source : LocalNodeIndex}
    (isTrigger : dep.path.trigger = .start index) (isSource : dep.path.source = some source)
    (known : (walked layout dep domain).state source = some state)
    (unregistered : state.byTag dep.tag = none) :
    evictAlong layout dep domain = .ok (walked layout dep domain, none) := by
  have same : Function.update (walked layout dep domain).state source (some state) =
      (walked layout dep domain).state := by
    rw [← known, Function.update_eq_self]
  simp [evictAlong, isTrigger, isSource, known, NodeState.evictKeys, unregistered, same]

section

variable (wf : WellFormed layout height domain) (isPath : layout.get dep.tag = some dep.path)

include wf isPath

theorem settled_evictFrom (isLocal : dep.path.IsLocal)
    (notReader : layout.isReader dep.path.lastSegment.node = false)
    (known : domain.state dep.path.lastSegment.node = some state)
    (holds : DependableExcept layout domain (OrListed pending (dep :: rest))) :
    Settled layout dep (OrListed pending rest)
      (domain.evictFrom dep.path.lastSegment.node state dep.path.lastSegment.partialIndex dep.keys)
      (some (dep.path.lastSegment.partialIndex, dep.path.lastSegment.node)) := by
  refine ⟨isLocal, notReader, rfl, rfl, ?_⟩
  have shrinks := shrinks_evictFrom dep.path.lastSegment.partialIndex dep.keys known
  have holdsEvicted := (holds.evictFrom dep.path.lastSegment.partialIndex dep.keys
    known).mono or_right_comm.mp
  refine (holdsEvicted.gone (wf.shrinks shrinks) isPath ?_).mono or_right_comm.mp
  intro _ key isKey filled
  rw [AtDestination, notReader] at filled
  exact ((filledAt_evictFrom_iff known).mp filled).2 ⟨rfl, rfl, isKey⟩

/-- The keys of a dependent path leave the destination, and nothing else loses its
justification than what depends on them. -/
theorem evictAlong_settled {calls : LocalNodeIndex → Index → List K → Prop}
    (call : dep.path.IsLocal → layout.isReader dep.path.lastSegment.node = false →
      calls dep.path.lastSegment.node dep.path.lastSegment.partialIndex dep.keys)
    (holds : DependableExcept layout domain (OrListed pending (dep :: rest))) :
    ∃ next triggered, evictAlong layout dep domain = .ok (next, triggered) ∧
      Evicts calls domain next ∧ Settled layout dep (OrListed pending rest) next triggered := by
  have same : SameStates domain (walked layout dep domain) := sameStates_walkPath ..
  have wellFormedWalked := wf.shrinks same.shrinks
  have holdsWalked := same.dependableExcept holds
  -- Other paths than those that end in the domain only take keys from readers.
  have outside : ¬dep.path.IsLocal → Settled layout dep (OrListed pending rest)
      (walked layout dep domain) none :=
    fun notLocal => holdsWalked.gone wellFormedWalked isPath fun isLocal => absurd isLocal notLocal
  have isEntry := get_mem isPath
  cases isTrigger : dep.path.trigger with
  | none | ends =>
    refine ⟨_, none, ?_, same.evicts, outside (by simp [ReplayPath.IsLocal, isTrigger])⟩
    rw [evictAlong, isTrigger]
  | start index =>
    obtain ⟨_, source, state, isSource, known, unregistered⟩ :=
      wellFormedWalked.unregistered _ isEntry ⟨index, isTrigger⟩
    exact ⟨_, none, evictAlong_start isTrigger isSource known unregistered, same.evicts,
      outside (by simp [ReplayPath.IsLocal, isTrigger])⟩
  | locally index =>
    have isLocal : dep.path.IsLocal := ⟨index, isTrigger⟩
    cases isReader : layout.isReader dep.path.lastSegment.node with
    | true =>
      refine ⟨_, none, ?_, same.evicts,
        holdsWalked.gone wellFormedWalked isPath fun _ => walkPath_gone isReader⟩
      simp [evictAlong, isTrigger, isReader]
    | false =>
      cases known : (walked layout dep domain).state dep.path.lastSegment.node with
      | none =>
        refine ⟨_, none, ?_, same.evicts,
          holdsWalked.gone wellFormedWalked isPath fun _ key _ filled => ?_⟩
        · simp [evictAlong, isTrigger, known]
        · simp [AtDestination, isReader, FilledAt, known] at filled
      | some state =>
        have registered := wellFormedWalked.registered _ isEntry (.inl isLocal) state known
        refine ⟨_, _, ?_, same.evicts.trans (evicts_evictFrom known (call isLocal isReader)),
          settled_evictFrom wellFormedWalked isPath isLocal isReader known holdsWalked⟩
        simp only [evictAlong, isTrigger, isReader, known, NodeState.evictKeys, registered]
        rfl

end

end

/-! ## Evictions that trigger others -/

section

variable [DecidableEq K] {original domain : DomainState K} {node first : LocalNodeIndex}
  {index firstIndex : Index} {keys firstKeys : List K} {pending : Tag → ReplayPath → K → Prop}
  {found : List (Dependent K)} {left : RemappedKeys K} {dep : Dependent K}

omit [DecidableEq K] in
theorem WellFormed.known (wf : WellFormed layout height domain) :
    Known layout domain.remappedKeys := by
  intro node target cols upstream downstream recorded named mem
  obtain ⟨path, isPath, _⟩ := wf.recorded _ _ _ _ _ recorded named mem
  exact ⟨path, isPath⟩

omit [DecidableEq K] in
/-- Only the dependents that are found still rest on evicted keys. -/
theorem Finds.dependableExcept
    (finds : Finds layout node index keys layout.replayPaths domain.remappedKeys found left)
    (wf : WellFormed layout height domain)
    (traced : Traced layout original first firstIndex firstKeys)
    (call : Call layout original first firstIndex firstKeys node index keys)
    (evicts : Evicts (Call layout original first firstIndex firstKeys) original domain)
    (holds : DependableExcept layout domain fun tag path key =>
      pending tag path key ∨ Direct domain node index keys tag path key) :
    DependableExcept layout { domain with remappedKeys := left } (OrListed pending found) := by
  intro entry mem isLocal key filled
  have filledBefore : AtDestination layout domain entry.2 key := filled
  have filledFirst := filledBefore.shrinks evicts.toShrinks
  rcases holds entry mem isLocal key filledBefore with
    (atSource | rewritten) | isPending | ⟨isSource, isTrigger, isKey⟩ |
      ⟨rewriter, upstream, downstream, recorded, ⟨named, isNamed, sameTag, isKey⟩, other, common,
        evicted, lost⟩
  · exact .inl (.inl atSource)
  · obtain ⟨rewriter, target, cols, upstream, downstream, recorded, names⟩ := rewritten.recorded
    obtain ⟨named, isNamed, sameTag, isKey⟩ := names
    rcases finds.removed _ _ _ _ _ recorded with kept | listed
    · exact .inl (.inr ⟨⟨rewriter, target, cols, upstream, downstream, kept,
        named, isNamed, sameTag, isKey⟩, fun _ _ _ _ _ isLeft =>
          rewritten.filled _ _ _ _ _ (finds.shrinks _ _ _ _ _ isLeft)⟩)
    · exact .inr (.inr (sameTag ▸ listed named isNamed key isKey))
  · exact .inr (.inl isPending)
  · -- The key is filled at the destination, so no record hides the path.
    have unrecorded : domain.remappedKeys.along entry.2 keys = none := by
      refine Option.eq_none_iff_forall_ne_some.mpr fun downstream recorded => ?_
      have recordedFirst := along_shrinks evicts.recorded recorded
      exact traced.unmasked call entry mem isSource isTrigger (by simp [recordedFirst]) key isKey
        filledFirst
    have isIndex : entry.2.triggerKey = some index := by rw [ReplayPath.triggerKey, isTrigger]
    exact .inr (.inr (finds.along entry mem isSource isIndex unrecorded key isKey))
  · have recordedFirst := evicts.recorded _ _ _ _ _ recorded
    -- No index has the key any more, so a call took it from every index that had it.
    have loses : Loses layout original first firstIndex firstKeys node index.columns other :=
      fun at_ isColumns had => (evicts.lost node at_ other had).resolve_left fun still =>
        lost ⟨at_, isColumns, still⟩
    have isPath : layout.get named.1 = some entry.2 := sameTag ▸ wf.get mem
    obtain ⟨sameKeys, path, isEntry, isSource, isTrigger, isRewriter, isTarget, isColumns⟩ :=
      traced.exact call rewriter upstream downstream recordedFirst ⟨other, common, evicted, loses⟩
        ⟨named, isNamed, entry.2, isPath, key, isKey, filledFirst⟩
    obtain ⟨targetIndex, isIndex, sameColumns⟩ := Option.map_eq_some_iff.mp isColumns
    have found : domain.remappedKeys.along path.2 keys = some downstream := by
      simp [RemappedKeys.along, isTarget, isIndex, sameColumns, isRewriter, ← sameKeys, recorded]
    exact .inr (.inr (sameTag ▸
      finds.rewritten path isEntry isSource isTrigger downstream found named isNamed key isKey))

/-- A dependent path is one of the domain, and the evictions from its destination are
further down. -/
structure Below (layout : Layout) (height : LocalNodeIndex → Nat) (original : DomainState K)
    (first : LocalNodeIndex) (firstIndex : Index) (firstKeys : List K) (node : LocalNodeIndex)
    (dependent : Dependent K) : Prop where
  isPath : layout.get dependent.tag = some dependent.path
  lower : dependent.path.IsLocal → height dependent.path.lastSegment.node < height node
  call : dependent.path.IsLocal → layout.isReader dependent.path.lastSegment.node = false →
    Call layout original first firstIndex firstKeys dependent.path.lastSegment.node
      dependent.path.lastSegment.partialIndex dependent.keys

omit [DecidableEq K] in
/-- What is found lies below the node, so that the cascade ends. -/
theorem Finds.below
    (finds : Finds layout node index keys layout.replayPaths domain.remappedKeys found left)
    (wf : WellFormed layout height domain)
    (call : Call layout original first firstIndex firstKeys node index keys)
    (shrinks : Shrinks original domain) (mem : dep ∈ found) :
    Below layout height original first firstIndex firstKeys node dep := by
  rcases finds.sound dep mem with ⟨entry, isEntry, isSource, isTrigger, isDependent⟩ |
    ⟨entry, isEntry, isSource, isTrigger, downstream, recorded, named, isNamed, sameTag, sameKeys,
      isPath⟩
  · subst isDependent
    refine ⟨wf.get isEntry, fun isLocal => wf.descends entry isEntry isLocal node isSource, ?_⟩
    rintro ⟨trigger, isLocally⟩ notReader
    rw [ReplayPath.triggerKey, isLocally, Option.some.injEq] at isTrigger
    exact .along call isEntry isSource (isTrigger ▸ isLocally) notReader
  · obtain ⟨target, isTarget, isRecord⟩ := Option.bind_eq_some_iff.mp recorded
    obtain ⟨targetIndex, isIndex, isRecord⟩ := Option.bind_eq_some_iff.mp isRecord
    refine ⟨isPath, fun isLocal => ?_, fun isLocal notReader => ?_⟩
    · -- A path out of the domain has no target index, so the rewriting path is local.
      have entryLocal : entry.2.IsLocal := by
        cases triggered : entry.2.trigger with
        | locally trigger => exact ⟨trigger, triggered⟩
        | start trigger =>
          have noTarget := (wf.unregistered entry isEntry ⟨trigger, triggered⟩).1
          rw [noTarget] at isIndex
          nomatch isIndex
        | none | ends => exact absurd (by rw [ReplayPath.triggerKey, triggered]) isTrigger
      obtain ⟨path, alsoPath, lower⟩ := wf.recorded _ _ _ _ _ isRecord named isNamed
      rw [← sameTag, isPath, Option.some.injEq] at alsoPath
      have descends := wf.descends entry isEntry entryLocal node isSource
      rw [alsoPath]
      omega
    · rw [sameKeys]
      exact .rewritten call isEntry isSource (along_shrinks shrinks.recorded recorded) isNamed
        (sameTag ▸ isPath) isLocal notReader

/-- What calls of `triggerDownstreamEvictions` with some fuel do. -/
def TriggersAll (layout : Layout) (height : LocalNodeIndex → Nat) (original : DomainState K)
    (first : LocalNodeIndex) (firstIndex : Index) (firstKeys : List K) (fuel : Nat) : Prop :=
  ∀ (domain : DomainState K) (node : LocalNodeIndex) (index : Index) (keys : List K)
    (pending : Tag → ReplayPath → K → Prop), WellFormed layout height domain →
    Evicts (Call layout original first firstIndex firstKeys) original domain →
    Call layout original first firstIndex firstKeys node index keys → height node < fuel →
    (DependableExcept layout domain fun tag path key =>
      pending tag path key ∨ Direct domain node index keys tag path key) →
    ∃ after, triggerDownstreamEvictions layout fuel index keys node domain = .ok after ∧
      Evicts (Call layout original first firstIndex firstKeys) domain after ∧
        DependableExcept layout after pending

/-- One dependent is settled, with all that rests on it. -/
theorem evictDependent_dependable {fuel : Nat} {rest : List (Dependent K)}
    (triggersAll : TriggersAll layout height original first firstIndex firstKeys fuel)
    (wf : WellFormed layout height domain)
    (evicts : Evicts (Call layout original first firstIndex firstKeys) original domain)
    (below : Below layout height original first firstIndex firstKeys node dep)
    (lower : height node < fuel + 1)
    (holds : DependableExcept layout domain (OrListed pending (dep :: rest))) :
    ∃ after, evictDependent layout (triggerDownstreamEvictions layout fuel) domain dep =
        .ok after ∧ Evicts (Call layout original first firstIndex firstKeys) domain after ∧
      DependableExcept layout after (OrListed pending rest) := by
  obtain ⟨next, triggered, isNext, nextEvicts, settled⟩ :=
    evictAlong_settled wf below.isPath below.call holds
  cases triggered with
  | none =>
    refine ⟨next, ?_, nextEvicts, settled⟩
    rw [evictDependent, isNext]
    rfl
  | some target =>
    obtain ⟨isLocal, notReader, sameIndex, sameNode, holdsNext⟩ := settled
    have lowerNext := below.lower isLocal
    rw [sameNode] at notReader
    obtain ⟨after, isAfter, afterEvicts, holdsAfter⟩ :=
      triggersAll next target.2 target.1 dep.keys _ (wf.shrinks nextEvicts.toShrinks)
        (evicts.trans nextEvicts) (sameIndex ▸ sameNode ▸ below.call isLocal notReader)
        (by rw [sameNode]; omega) holdsNext
    refine ⟨after, ?_, nextEvicts.trans afterEvicts, holdsAfter⟩
    rw [evictDependent, isNext]
    exact isAfter

/-- The cascade settles every dependent, by induction on the fuel. -/
theorem triggerDownstreamEvictions_dependable
    (traced : Traced layout original first firstIndex firstKeys) (fuel : Nat) :
    TriggersAll layout height original first firstIndex firstKeys fuel := by
  induction fuel with
  | zero => exact fun _ _ _ _ _ _ _ _ lower => absurd lower (Nat.not_lt_zero _)
  | succ fuel ih =>
    intro domain node index keys pending wf evicts call lower holds
    obtain ⟨found, left, isFound, finds⟩ :=
      dependentsOn_finds node index keys wf.known layout.replayPaths
    have start := finds.dependableExcept wf traced call evicts holds
    have startEvicts : Evicts (Call layout original first firstIndex firstKeys) domain
        { domain with remappedKeys := left } :=
      ⟨⟨fun _ => rfl, fun _ _ _ filled => filled, fun _ => List.Subset.refl _, finds.shrinks⟩,
        fun _ _ _ filled => .inl filled⟩
    -- The dependent paths that the loop has not reached are what is still to evict.
    obtain ⟨after, folded, afterEvicts, holdsAfter⟩ := Library.foldlM_invariant
      (evictDependent layout (triggerDownstreamEvictions layout fuel))
      (fun done cur => Evicts (Call layout original first firstIndex firstKeys) domain cur ∧
        DependableExcept layout cur (OrListed pending (found.drop done.length)))
      found
      (by
        rintro done dep rest cur isWhole ⟨currentEvicts, holdsCurrent⟩
        have isMember : dep ∈ found := by simp [isWhole]
        have below := finds.below wf call evicts.toShrinks isMember
        rw [isWhole, List.drop_left] at holdsCurrent
        obtain ⟨next, isNext, nextEvicts, holdsNext⟩ :=
          evictDependent_dependable ih (wf.shrinks currentEvicts.toShrinks)
            (evicts.trans currentEvicts) below lower holdsCurrent
        refine ⟨next, isNext, currentEvicts.trans nextEvicts, ?_⟩
        rw [isWhole, List.append_cons done dep rest, List.drop_left]
        exact holdsNext)
      ⟨startEvicts, start⟩
    refine ⟨after, ?_, afterEvicts, holdsAfter.mono ?_⟩
    · rw [triggerDownstreamEvictions, isFound]
      exact folded
    · rintro tag path key (isPending | ⟨dep, mem, _⟩)
      · exact isPending
      · simp at mem

end

end

end ReadySet.Domain
