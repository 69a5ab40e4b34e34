import ReadySet.Domain.EvictionRuns

/-!
Owns the packets that evict: `handleEviction_dependable` for packets whose evictions
are traced, and a domain with a rewritten key where two keys that are evicted together
are not.
-/

namespace ReadySet.Domain

open Dataflow DataflowState

open EvictionPacket (evict evictKeys)

section

variable {K : Type} [DecidableEq K] {layout : Layout} {height : LocalNodeIndex → Nat}
  {domain : DomainState K}

/-- Packets are about nodes with a state, and their evictions are traced. -/
def EvictionPacket.Traced (layout : Layout) (domain : DomainState K) : EvictionPacket K → Prop
  | .evict node index keys => layout.isReader node = false →
      (∃ state, domain.state node = some state) ∧ Domain.Traced layout domain node index keys
  | .evictKeys dst keys tag => ∀ path, layout.get tag = some path →
      (∃ segment ∈ path.path, segment.node = dst) ∧
        (path.IsLocal ∨ path.trigger = .ends → layout.isReader path.lastSegment.node = false →
          (∃ state, domain.state path.lastSegment.node = some state) ∧
            Domain.Traced layout domain path.lastSegment.node path.lastSegment.partialIndex keys)

/-- The keys of a packet are not filled any more. -/
def EvictionPacket.Gone (layout : Layout) (domain : DomainState K) : EvictionPacket K → Prop
  | .evict node index keys => ∀ key ∈ keys,
      if layout.isReader node then key ∉ domain.readers node else ¬FilledAt domain node index key
  | .evictKeys _ keys tag => ∀ path, layout.get tag = some path →
      path.IsLocal ∨ path.trigger = .ends → ∀ key ∈ keys, ¬AtDestination layout domain path key

variable {node : LocalNodeIndex} {state : NodeState K} {index : Index} {keys : List K} {fuel : Nat}
  {key : K}

theorem evictFrom_triggers {original : DomainState K}
    (wf : WellFormed layout height domain) (enough : height node < fuel)
    (traced : Traced layout original node index keys)
    (evicts : Evicts (Call layout original node index keys) original domain)
    (known : domain.state node = some state) (holds : Dependable layout domain) :
    ∃ after, triggerDownstreamEvictions layout fuel index keys node
        (domain.evictFrom node state index keys) = .ok after ∧ Dependable layout after ∧
      Shrinks (domain.evictFrom node state index keys) after := by
  have evicted : Evicts (Call layout original node index keys) domain
      (domain.evictFrom node state index keys) := evicts_evictFrom known .first
  obtain ⟨after, isAfter, afterEvicts, holdsAfter⟩ :=
    triggerDownstreamEvictions_dependable traced fuel (domain.evictFrom node state index keys)
      node index keys (fun _ _ _ => False) (wf.shrinks evicted.toShrinks) (evicts.trans evicted) .first
      enough ((dependableExcept_false.mpr holds).evictFrom index keys known)
  exact ⟨after, isAfter, dependableExcept_false.mp holdsAfter, afterEvicts.toShrinks⟩

theorem not_filledAt_evictFrom (known : domain.state node = some state)
    (isKey : key ∈ keys) : ¬FilledAt (domain.evictFrom node state index keys) node index key :=
  fun filled => ((filledAt_evictFrom_iff known).mp filled).2 ⟨rfl, rfl, isKey⟩

/-- Evicting from a node keeps its dependents dependable. -/
theorem evict_dependable (wf : WellFormed layout height domain)
    (enough : ∀ node, height node < fuel) (traced : (evict node index keys).Traced layout domain)
    (holds : Dependable layout domain) :
    ∃ after, handleEviction layout fuel domain (.evict node index keys) = .ok after ∧
      Dependable layout after ∧ (evict node index keys).Gone layout after := by
  cases isReader : layout.isReader node with
  | true =>
    have same : SameStates domain (processEviction layout keys domain ⟨node, index, false⟩) :=
      sameStates_processEviction keys _
    refine ⟨processEviction layout keys domain ⟨node, index, false⟩, ?_, ?_, ?_⟩
    · simp [handleEviction, processEviction, isReader]
    · exact dependableExcept_false.mp (same.dependableExcept (dependableExcept_false.mpr holds))
    · intro key isKey
      rw [if_pos isReader]
      simp [processEviction, isReader, isKey]
  | false =>
    obtain ⟨⟨state, known⟩, isTraced⟩ := traced isReader
    obtain ⟨after, isAfter, dependable, shrinks⟩ :=
      evictFrom_triggers wf (enough node) isTraced (.refl domain) known holds
    cases keys with
    | nil =>
      refine ⟨domain.evictFrom node state index [], ?_, ?_, fun key isKey => by cases isKey⟩
      · simp only [handleEviction, isReader, known]
        rfl
      · refine dependableExcept_false.mp (((dependableExcept_false.mpr holds).evictFrom index []
          known).mono ?_)
        rintro tag path key (isFalse | ⟨_, _, isKey⟩ | ⟨_, _, _, _, _, _, _, isKey, _⟩)
        · exact isFalse
        · cases isKey
        · cases isKey
    | cons key keys =>
      refine ⟨after, ?_, dependable, ?_⟩
      · simp only [handleEviction, isReader, known]
        exact isAfter
      · intro other isKey
        rw [isReader]
        exact fun filled => not_filledAt_evictFrom known isKey (shrinks.filled _ _ _ filled)

omit [DecidableEq K] in
theorem lastSegment_mem_dropWhile {path : ReplayPath} {dst : LocalNodeIndex}
    (onPath : ∃ segment ∈ path.path, segment.node = dst) :
    path.lastSegment ∈ path.path.dropWhile fun segment => segment.node ≠ dst := by
  rw [ReplayPath.path, List.dropWhile_append]
  split
  · next dropped =>
      rw [List.isEmpty_iff, List.dropWhile_eq_nil_iff] at dropped
      obtain ⟨segment, mem, isDst⟩ := onPath
      rcases List.mem_append.mp mem with early | isLast
      · exact absurd isDst (of_decide_eq_true (dropped segment early))
      · rw [List.mem_singleton.mp isLast] at isDst
        simp [isDst]
  · exact List.mem_append_right _ (List.mem_singleton_self _)

section

variable {dst : LocalNodeIndex} {tag : Tag} {path : ReplayPath}
  {segments : List ReplayPathSegment}

section

variable (isPath : layout.get tag = some path)
  (isSegments : path.path.dropWhile (fun segment => segment.node ≠ dst) = segments)
  (nonempty : segments ≠ [])

include isPath isSegments nonempty

theorem handleEviction_walks
    (readers : path.IsLocal ∨ path.trigger = .ends → layout.isReader path.lastSegment.node = true) :
    handleEviction layout fuel domain (.evictKeys dst keys tag) =
      .ok (walkPath layout segments keys domain) := by
  cases segments with
  | nil => exact absurd rfl nonempty
  | cons segment segments =>
    simp only [handleEviction, isPath, isSegments]
    cases isTrigger : path.trigger with
    | none => rfl
    | start index => rfl
    | ends => simp [readers (.inr isTrigger)]
    | locally index => simp [readers (.inl ⟨index, isTrigger⟩)]

theorem handleEviction_inside (inside : path.IsLocal ∨ path.trigger = .ends)
    (notReader : layout.isReader path.lastSegment.node = false)
    (known : (walkPath layout segments keys domain).state path.lastSegment.node = some state)
    (registered : state.byTag tag = some path.lastSegment.partialIndex) :
    handleEviction layout fuel domain (.evictKeys dst keys tag) =
      triggerDownstreamEvictions layout fuel path.lastSegment.partialIndex keys
        path.lastSegment.node ((walkPath layout segments keys domain).evictFrom
          path.lastSegment.node state path.lastSegment.partialIndex keys) := by
  cases segments with
  | nil => exact absurd rfl nonempty
  | cons segment segments =>
    simp only [handleEviction, isPath, isSegments]
    rcases inside with ⟨index, isTrigger⟩ | isTrigger
    · simp only [isTrigger, notReader, known, NodeState.evictKeys, registered]
      rfl
    · simp only [isTrigger, notReader, known, NodeState.evictKeys, registered]
      rfl

end

/-- So does evicting the keys of a path. -/
theorem evictKeys_dependable (wf : WellFormed layout height domain)
    (enough : ∀ node, height node < fuel) (traced : (evictKeys dst keys tag).Traced layout domain)
    (holds : Dependable layout domain) :
    ∃ after, handleEviction layout fuel domain (.evictKeys dst keys tag) = .ok after ∧
      Dependable layout after ∧ (evictKeys dst keys tag).Gone layout after := by
  cases isPath : layout.get tag with
  | none =>
    refine ⟨domain, ?_, holds, fun path known => ?_⟩
    · rw [handleEviction, isPath]
    · rw [isPath] at known
      nomatch known
  | some path =>
    obtain ⟨onPath, isTraced⟩ := traced path isPath
    have isLast := lastSegment_mem_dropWhile onPath
    generalize isSegments : path.path.dropWhile (fun segment => segment.node ≠ dst) = segments
      at isLast
    have nonempty : segments ≠ [] := List.ne_nil_of_mem isLast
    have same : SameStates domain (walkPath layout segments keys domain) := sameStates_walkPath ..
    have holdsWalked : Dependable layout (walkPath layout segments keys domain) :=
      dependableExcept_false.mp (same.dependableExcept (dependableExcept_false.mpr holds))
    by_cases inside : path.IsLocal ∨ path.trigger = .ends
    · cases isReader : layout.isReader path.lastSegment.node with
      | true =>
        refine ⟨_, ?_, holdsWalked, fun other alsoPath _ key isKey filled => ?_⟩
        · exact handleEviction_walks isPath isSegments nonempty fun _ => isReader
        · rw [isPath, Option.some.injEq] at alsoPath
          rw [← alsoPath, AtDestination, if_pos isReader] at filled
          exact walkPath_evicts keys isLast isReader isKey filled
      | false =>
        obtain ⟨⟨state, known⟩, isTraced⟩ := isTraced inside isReader
        have knownWalked := known
        rw [← same.state] at knownWalked
        have registered := wf.registered _ (get_mem isPath) inside state known
        obtain ⟨after, isAfter, dependable, shrinks⟩ :=
          evictFrom_triggers (wf.shrinks same.shrinks) (enough _) isTraced same.evicts
            knownWalked holdsWalked
        refine ⟨after, ?_, dependable, fun other alsoPath _ key isKey filled => ?_⟩
        · rw [handleEviction_inside isPath isSegments nonempty inside isReader knownWalked
            registered]
          exact isAfter
        · rw [isPath, Option.some.injEq] at alsoPath
          rw [← alsoPath, AtDestination, isReader] at filled
          exact not_filledAt_evictFrom knownWalked isKey (shrinks.filled _ _ _ filled)
    · refine ⟨_, handleEviction_walks isPath isSegments nonempty fun isInside =>
        absurd isInside inside, holdsWalked, ?_⟩
      intro other alsoPath alsoInside
      rw [isPath, Option.some.injEq] at alsoPath
      exact absurd (alsoPath ▸ alsoInside) inside

end

end

/-! ## Rewritten keys -/

namespace RewrittenKeys

def onColumn (column : Nat) : Index := ⟨.hashMap, [column]⟩

/-- From node 0 to node 1, which generates columns. -/
def upstreamPath : ReplayPath :=
  ⟨some 0, some (onColumn 0), [], ⟨1, onColumn 1, false⟩, .locally (onColumn 0)⟩

/-- From a generated column of node 1 to node 2. -/
def downstreamPath : ReplayPath :=
  ⟨some 1, some (onColumn 2), [], ⟨2, onColumn 2, false⟩, .locally (onColumn 2)⟩

def layout : Layout := ⟨[(1, upstreamPath), (2, downstreamPath)], fun _ => false⟩

def oneIndex (tag : Tag) (column : Nat) (filled : List Nat) : NodeState Nat where
  byTag other := if other = tag then some (onColumn column) else none
  filled index := if index = onColumn column then filled else []

/-- Key 7 of node 2 was rewritten to key 10 of node 0. -/
def domain : DomainState Nat where
  state
    | 0 => some (oneIndex 0 0 [10, 20])
    | 1 => some (oneIndex 1 1 [])
    | 2 => some (oneIndex 2 2 [7])
    | _ => none
  readers _ := []
  remappedKeys := RemappedKeys.insert (fun _ _ _ _ => none) 1 0 [0] [10] 7 2

def height : LocalNodeIndex → Nat
  | 0 => 2
  | 1 => 1
  | _ => 0

theorem height_lt (node : LocalNodeIndex) : height node < 3 := by
  match node with
  | 0 | 1 => decide
  | node + 2 => exact Nat.zero_lt_succ 2

theorem remappedKeys_eq_some {node target : LocalNodeIndex} {cols : List Nat}
    {upstream : List Nat} {downstream : List (Tag × List Nat)}
    (recorded : domain.remappedKeys node target cols upstream = some downstream) :
    node = 1 ∧ target = 0 ∧ cols = [0] ∧ upstream = [10] ∧ downstream = [(2, [7])] := by
  simp only [domain, RemappedKeys.insert] at recorded
  split at recorded
  · next same =>
      obtain ⟨isNode, isTarget, isColumns, isUpstream⟩ := same
      exact ⟨isNode, isTarget, isColumns, isUpstream, (Option.some.inj recorded).symm⟩
  · nomatch recorded

theorem mem_replayPaths {entry : Tag × ReplayPath} (mem : entry ∈ layout.replayPaths) :
    entry = (1, upstreamPath) ∨ entry = (2, downstreamPath) := by
  simpa [layout] using mem

theorem wellFormed : WellFormed layout height domain where
  tags := by decide
  registered entry mem _ state known := by
    rcases mem_replayPaths mem with rfl | rfl
    all_goals
      obtain rfl := Option.some.inj known
      rfl
  unregistered entry mem starts := by
    rcases mem_replayPaths mem with rfl | rfl
    all_goals nomatch starts
  descends entry mem _ source isSource := by
    rcases mem_replayPaths mem with rfl | rfl
    all_goals
      obtain rfl := Option.some.inj isSource
      decide
  recorded node target cols upstream downstream recorded named mem := by
    obtain ⟨rfl, rfl, rfl, rfl, rfl⟩ := remappedKeys_eq_some recorded
    obtain rfl := List.mem_singleton.mp mem
    exact ⟨downstreamPath, rfl, by decide⟩

theorem dependable : Dependable layout domain := by
  intro entry mem _ key filled
  rcases mem_replayPaths mem with same | same
  · subst same
    obtain ⟨state, known, isFilled⟩ := filled
    obtain rfl := Option.some.inj known
    exact absurd isFilled (by simp [oneIndex])
  · subst same
    obtain ⟨state, known, isFilled⟩ := filled
    obtain rfl := Option.some.inj known
    have isKey : key = 7 := by simpa [oneIndex, downstreamPath] using isFilled
    subst isKey
    refine .inr ⟨⟨1, 0, [0], [10], [(2, [7])], rfl, (2, [7]), by simp, rfl, by simp⟩, ?_⟩
    intro rewriter target cols upstream downstream recorded _ other isOther
    obtain ⟨rfl, rfl, rfl, rfl, rfl⟩ := remappedKeys_eq_some recorded
    obtain rfl := List.mem_singleton.mp isOther
    exact ⟨onColumn 0, rfl, oneIndex 0 0 [10, 20], rfl, by decide⟩

theorem call_ten {node : LocalNodeIndex} {index : Index} {keys : List Nat}
    (call : Call layout domain 0 (onColumn 0) [10] node index keys) :
    (node, index, keys) ∈ [(0, onColumn 0, [10]), (1, onColumn 1, [10]), (2, onColumn 2, [7])] := by
  induction call with
  | first => simp
  | @along _ _ batch _ _ mem isSource isTrigger _ reached =>
    rcases mem_replayPaths mem with same | same
    · subst same
      obtain rfl := Option.some.inj isSource
      have isBatch : batch = [10] := by
        simp at reached
        exact reached.2
      simp [isBatch, upstreamPath]
    · subst same
      obtain rfl := Option.some.inj isSource
      obtain rfl := TriggerEndpoint.locally.inj isTrigger
      exact absurd reached (by simp [onColumn])
  | rewritten _ mem isSource recorded named isPath _ _ _ =>
    obtain ⟨target, _, recorded⟩ := Option.bind_eq_some_iff.mp recorded
    obtain ⟨targetIndex, _, recorded⟩ := Option.bind_eq_some_iff.mp recorded
    obtain ⟨_, _, _, _, rfl⟩ := remappedKeys_eq_some recorded
    obtain rfl := List.mem_singleton.mp named
    obtain rfl : downstreamPath = _ := Option.some.inj isPath
    simp [downstreamPath]

theorem traced_ten : Traced layout domain 0 (onColumn 0) [10] where
  exact {_ atIndex batch} call rewriter upstream downstream recorded _ _ := by
    obtain ⟨rfl, rfl, _, rfl, rfl⟩ := remappedKeys_eq_some recorded
    obtain ⟨rfl, rfl⟩ : atIndex = onColumn 0 ∧ batch = [10] := by simpa using call_ten call
    exact ⟨rfl, (1, upstreamPath), by simp [layout], rfl, by simp [upstreamPath, ReplayPath.triggerKey],
      rfl, rfl, rfl⟩
  unmasked {_ _ batch} _ entry mem _ _ recorded key _ filled := by
    obtain ⟨downstream, recorded⟩ := Option.ne_none_iff_exists'.mp recorded
    obtain ⟨target, _, recorded⟩ := Option.bind_eq_some_iff.mp recorded
    obtain ⟨targetIndex, _, recorded⟩ := Option.bind_eq_some_iff.mp recorded
    obtain ⟨isRewriter, _⟩ := remappedKeys_eq_some recorded
    rcases mem_replayPaths mem with same | same
    · subst same
      obtain ⟨state, known, isFilled⟩ := filled
      obtain rfl := Option.some.inj known
      exact absurd isFilled (by simp [oneIndex])
    · subst same
      cases isRewriter

end RewrittenKeys

end ReadySet.Domain
