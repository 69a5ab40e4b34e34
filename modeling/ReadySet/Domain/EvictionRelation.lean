import ReadySet.Domain.Eviction

/-!
Owns what evictions keep: a key that is filled at the destination of a replay path is
filled at the source of the path, or is recorded as rewritten, and all upstream keys of
its records are filled (`Dependable`).

Keys that depend on evicted ones are found by the index of the path, or by the whole
list of the evicted keys in the records, and the second excludes the first. So the
evictions have to be `Traced`: where upstream keys of a recorded rewriting leave the
last index that has them, they are evicted exactly together, and a path for which a
rewriting is recorded does not have the evicted keys at its destination as well.
-/

namespace ReadySet.Domain

open Dataflow DataflowState List Function

section

variable {K : Type}

/-! ## Filled keys -/

def FilledAt (domain : DomainState K) (node : LocalNodeIndex) (index : Index) (key : K) : Prop :=
  ∃ state, domain.state node = some state ∧ key ∈ state.filled index

def AtDestination (layout : Layout) (domain : DomainState K) (path : ReplayPath) (key : K) : Prop :=
  if layout.isReader path.lastSegment.node then key ∈ domain.readers path.lastSegment.node
  else FilledAt domain path.lastSegment.node path.lastSegment.partialIndex key

/-- A path that starts and ends in the domain. -/
def ReplayPath.IsLocal (path : ReplayPath) : Prop := ∃ index, path.trigger = .locally index

/-- A record of rewritten keys has a key of a path. -/
def Names (downstream : List (Tag × List K)) (tag : Tag) (key : K) : Prop :=
  ∃ named ∈ downstream, named.1 = tag ∧ key ∈ named.2

/-- A key is filled in an index on the columns. -/
def FilledOn (domain : DomainState K) (node : LocalNodeIndex) (columns : List Nat) (key : K) :
    Prop :=
  ∃ index : Index, index.columns = columns ∧ FilledAt domain node index key

/-- A key of a path is recorded as rewritten, and all upstream keys that it was
rewritten to are filled. There is a record for each upstream parent. -/
structure Rewritten (domain : DomainState K) (tag : Tag) (key : K) : Prop where
  recorded : ∃ node target columns upstream downstream,
    domain.remappedKeys node target columns upstream = some downstream ∧ Names downstream tag key
  filled : ∀ node target columns upstream downstream,
    domain.remappedKeys node target columns upstream = some downstream →
      Names downstream tag key → ∀ other ∈ upstream, FilledOn domain target columns other

def Justified (domain : DomainState K) (tag : Tag) (path : ReplayPath) (key : K) : Prop :=
  (∃ source index, path.source = some source ∧ path.trigger = .locally index ∧
    FilledAt domain source index key) ∨ Rewritten domain tag key

/-- What is filled at the destinations of paths is justified. -/
def Dependable (layout : Layout) (domain : DomainState K) : Prop :=
  ∀ entry ∈ layout.replayPaths, entry.2.IsLocal → ∀ key,
    AtDestination layout domain entry.2 key → Justified domain entry.1 entry.2 key

/-! ## Domains -/

/-- The tags of paths are distinct, states know the tags of the paths that end in them,
paths lead downwards, and so do the records of rewritten keys. -/
structure WellFormed (layout : Layout) (height : LocalNodeIndex → Nat) (domain : DomainState K) :
    Prop where
  tags : (layout.replayPaths.map Prod.fst).Nodup
  registered : ∀ entry ∈ layout.replayPaths, entry.2.IsLocal ∨ entry.2.trigger = .ends →
    ∀ state, domain.state entry.2.lastSegment.node = some state →
      state.byTag entry.1 = some entry.2.lastSegment.partialIndex
  unregistered : ∀ entry ∈ layout.replayPaths, (∃ index, entry.2.trigger = .start index) →
    entry.2.targetIndex = none ∧ ∃ source state, entry.2.source = some source ∧
      domain.state source = some state ∧ state.byTag entry.1 = none
  descends : ∀ entry ∈ layout.replayPaths, entry.2.IsLocal → ∀ source,
    entry.2.source = some source → height entry.2.lastSegment.node < height source
  recorded : ∀ node target columns upstream downstream,
    domain.remappedKeys node target columns upstream = some downstream →
      ∀ named ∈ downstream, ∃ path, layout.get named.1 = some path ∧
        height path.lastSegment.node ≤ height node

/-- The evictions that an eviction can trigger. -/
inductive Call (layout : Layout) (domain : DomainState K) (node : LocalNodeIndex) (index : Index)
    (keys : List K) : LocalNodeIndex → Index → List K → Prop where
  | first : Call layout domain node index keys node index keys
  | along {reached : LocalNodeIndex} {at_ : Index} {batch : List K} {entry : Tag × ReplayPath} :
      Call layout domain node index keys reached at_ batch → entry ∈ layout.replayPaths →
      entry.2.source = some reached → entry.2.trigger = .locally at_ →
      layout.isReader entry.2.lastSegment.node = false →
      Call layout domain node index keys entry.2.lastSegment.node
        entry.2.lastSegment.partialIndex batch
  | rewritten {reached : LocalNodeIndex} {at_ : Index} {batch : List K} {entry : Tag × ReplayPath}
      {downstream : List (Tag × List K)} {named : Tag × List K} {path : ReplayPath} :
      Call layout domain node index keys reached at_ batch → entry ∈ layout.replayPaths →
      entry.2.source = some reached → domain.remappedKeys.along entry.2 batch = some downstream →
      named ∈ downstream → layout.get named.1 = some path → path.IsLocal →
      layout.isReader path.lastSegment.node = false →
      Call layout domain node index keys path.lastSegment.node path.lastSegment.partialIndex named.2

/-- Every index on the columns that has the key can be evicted from. -/
def Loses (layout : Layout) (domain : DomainState K) (node : LocalNodeIndex) (index : Index)
    (keys : List K) (reached : LocalNodeIndex) (columns : List Nat) (key : K) : Prop :=
  ∀ other : Index, other.columns = columns → FilledAt domain reached other key →
    ∃ batch, key ∈ batch ∧ Call layout domain node index keys reached other batch

/-- Evicted keys are looked up as they were recorded. -/
structure Traced (layout : Layout) (domain : DomainState K) (node : LocalNodeIndex) (index : Index)
    (keys : List K) : Prop where
  /-- Upstream keys of a rewriting whose downstream keys are filled, if no other index
  keeps one of them, are evicted exactly together, and a path leads from them to the
  node that rewrites. -/
  exact : ∀ {reached at_ batch}, Call layout domain node index keys reached at_ batch →
    ∀ rewriter upstream downstream,
      domain.remappedKeys rewriter reached at_.columns upstream = some downstream →
      (∃ key ∈ upstream, key ∈ batch ∧
        Loses layout domain node index keys reached at_.columns key) →
      (∃ named ∈ downstream, ∃ path, layout.get named.1 = some path ∧
        ∃ key ∈ named.2, AtDestination layout domain path key) →
      upstream = batch ∧ ∃ entry ∈ layout.replayPaths, entry.2.source = some reached ∧
        entry.2.triggerKey ≠ none ∧ entry.2.lastSegment.node = rewriter ∧
        entry.2.targetNode = some reached ∧
        entry.2.targetIndex.map Index.columns = some at_.columns
  /-- A path with a recorded rewriting does not have the evicted keys at its own
  destination. -/
  unmasked : ∀ {reached at_ batch}, Call layout domain node index keys reached at_ batch →
    ∀ entry ∈ layout.replayPaths, entry.2.source = some reached → entry.2.trigger = .locally at_ →
      domain.remappedKeys.along entry.2 batch ≠ none →
      ∀ key ∈ batch, ¬AtDestination layout domain entry.2 key

/-! ## Domains that lose keys -/

/-- Keys and records are lost, and nothing else changes. -/
structure Shrinks (before after : DomainState K) : Prop where
  byTag : ∀ node, (after.state node).map NodeState.byTag = (before.state node).map NodeState.byTag
  filled : ∀ node index key, FilledAt after node index key → FilledAt before node index key
  readers : ∀ node, after.readers node ⊆ before.readers node
  recorded : ∀ node target columns upstream downstream,
    after.remappedKeys node target columns upstream = some downstream →
      before.remappedKeys node target columns upstream = some downstream

variable {layout : Layout} {height : LocalNodeIndex → Nat} {before after domain : DomainState K}
  {last : DomainState K}

theorem Shrinks.refl (domain : DomainState K) : Shrinks domain domain :=
  ⟨fun _ => rfl, fun _ _ _ filled => filled, fun _ => Subset.refl _, fun _ _ _ _ _ known => known⟩

theorem Shrinks.trans (first : Shrinks before after)
    (second : Shrinks after last) : Shrinks before last where
  byTag node := (second.byTag node).trans (first.byTag node)
  filled node index key filled := first.filled node index key (second.filled node index key filled)
  readers node := Subset.trans (second.readers node) (first.readers node)
  recorded _ _ _ _ _ known := first.recorded _ _ _ _ _ (second.recorded _ _ _ _ _ known)

/-- Keys and records are lost, and keys only by one of the calls. -/
structure Evicts (calls : LocalNodeIndex → Index → List K → Prop) (before after : DomainState K) :
    Prop extends Shrinks before after where
  lost : ∀ node index key, FilledAt before node index key →
    FilledAt after node index key ∨ ∃ batch, key ∈ batch ∧ calls node index batch

variable {calls : LocalNodeIndex → Index → List K → Prop}

theorem Evicts.refl (domain : DomainState K) : Evicts calls domain domain :=
  ⟨.refl domain, fun _ _ _ filled => .inl filled⟩

theorem Evicts.trans (first : Evicts calls before after) (second : Evicts calls after last) :
    Evicts calls before last where
  toShrinks := first.toShrinks.trans second.toShrinks
  lost node index key filled :=
    (first.lost node index key filled).elim (second.lost node index key) .inr

variable {node : LocalNodeIndex}

theorem Shrinks.state {state : NodeState K} (shrinks : Shrinks before after)
    (known : after.state node = some state) :
    ∃ old, before.state node = some old ∧ old.byTag = state.byTag := by
  have same := shrinks.byTag node
  rw [known] at same
  exact Option.map_eq_some_iff.mp same.symm

theorem WellFormed.shrinks (wf : WellFormed layout height before)
    (shrinks : Shrinks before after) : WellFormed layout height after where
  tags := wf.tags
  registered entry mem inside state known := by
    obtain ⟨old, knownBefore, same⟩ := shrinks.state known
    rw [← same]
    exact wf.registered entry mem inside old knownBefore
  unregistered entry mem starts := by
    obtain ⟨noTarget, source, state, isSource, known, none⟩ := wf.unregistered entry mem starts
    refine ⟨noTarget, source, ?_⟩
    have same := shrinks.byTag source
    rw [known] at same
    obtain ⟨later, knownAfter, sameTags⟩ := Option.map_eq_some_iff.mp same
    exact ⟨later, isSource, knownAfter, sameTags ▸ none⟩
  descends := wf.descends
  recorded node target cols upstream downstream known :=
    wf.recorded node target cols upstream downstream
      (shrinks.recorded node target cols upstream downstream known)

variable {path : ReplayPath} {key : K}

theorem AtDestination.shrinks (shrinks : Shrinks before after)
    (filled : AtDestination layout after path key) : AtDestination layout before path key := by
  rw [AtDestination] at filled ⊢
  split at filled
  · next isReader =>
      rw [if_pos isReader]
      exact shrinks.readers _ filled
  · next notReader =>
      rw [if_neg notReader]
      exact shrinks.filled _ _ _ filled

theorem along_shrinks {keys : List K} {downstream : List (Tag × List K)}
    {small big : RemappedKeys K} (shrinks : ∀ node target cols upstream downstream,
      small node target cols upstream = some downstream →
      big node target cols upstream = some downstream)
    (known : small.along path keys = some downstream) : big.along path keys = some downstream := by
  rw [RemappedKeys.along] at known ⊢
  obtain ⟨target, isTarget, known⟩ := Option.bind_eq_some_iff.mp known
  obtain ⟨index, isIndex, known⟩ := Option.bind_eq_some_iff.mp known
  rw [isTarget, isIndex]
  exact shrinks _ _ _ _ _ known

theorem WellFormed.get (wf : WellFormed layout height domain) {entry : Tag × ReplayPath}
    (mem : entry ∈ layout.replayPaths) : layout.get entry.1 = some entry.2 := by
  obtain ⟨front, back, split⟩ := append_of_mem mem
  refine lookup_eq_some_iff.mpr ⟨front, back, split, ?_⟩
  intro other earlier
  have nodup := wf.tags
  rw [split, map_append, nodup_append] at nodup
  have ne := nodup.2.2 other.1 (mem_map_of_mem earlier) entry.1 (mem_map_of_mem mem_cons_self)
  exact bne_iff_ne.mpr (Ne.symm ne)

variable {tag : Tag}

theorem get_mem (known : layout.get tag = some path) : (tag, path) ∈ layout.replayPaths := by
  obtain ⟨front, back, split, _⟩ := lookup_eq_some_iff.mp known
  rw [split]
  exact mem_append_right front mem_cons_self

/-! ## Keys that lose their justification -/

/-- The keys of a path that depend on keys of an index: those of the index itself, and
those that were rewritten to keys that no index on its columns has any more. -/
def Direct (domain : DomainState K) (node : LocalNodeIndex) (index : Index) (keys : List K)
    (tag : Tag) (path : ReplayPath) (key : K) : Prop :=
  (path.source = some node ∧ path.trigger = .locally index ∧ key ∈ keys) ∨
    ∃ rewriter upstream downstream,
      domain.remappedKeys rewriter node index.columns upstream = some downstream ∧
        Names downstream tag key ∧
        ∃ other ∈ upstream, other ∈ keys ∧ ¬FilledOn domain node index.columns other

/-- What is filled at the destinations of paths is justified, or one of the given keys. -/
def DependableExcept (layout : Layout) (domain : DomainState K)
    (pending : Tag → ReplayPath → K → Prop) : Prop :=
  ∀ entry ∈ layout.replayPaths, entry.2.IsLocal → ∀ key,
    AtDestination layout domain entry.2 key →
      Justified domain entry.1 entry.2 key ∨ pending entry.1 entry.2 key

theorem dependableExcept_false :
    DependableExcept layout domain (fun _ _ _ => False) ↔ Dependable layout domain :=
  ⟨fun holds entry mem inside key filled =>
      (holds entry mem inside key filled).resolve_right id,
    fun holds entry mem inside key filled => .inl (holds entry mem inside key filled)⟩

theorem DependableExcept.mono {pending wider : Tag → ReplayPath → K → Prop}
    (holds : DependableExcept layout domain pending)
    (imp : ∀ {tag path key}, pending tag path key → wider tag path key) :
    DependableExcept layout domain wider :=
  fun entry mem isLocal key filled => (holds entry mem isLocal key filled).imp_right imp

variable [DecidableEq K] {pending : Tag → ReplayPath → K → Prop}

/-- A domain after keys left an index of a node. -/
def DomainState.evictFrom (domain : DomainState K) (node : LocalNodeIndex) (state : NodeState K)
    (index : Index) (keys : List K) : DomainState K :=
  { domain with state := Function.update domain.state node (some (state.evict index keys)) }

section

variable {state : NodeState K} {index : Index} {keys : List K}
  {other : Index}

theorem mem_evict_iff :
    key ∈ (state.evict index keys).filled other ↔
      key ∈ state.filled other ∧ ¬(other = index ∧ key ∈ keys) := by
  by_cases same : other = index
  · subst same
    simp [NodeState.evict]
  · simp [NodeState.evict, same]

theorem evictFrom_self :
    (domain.evictFrom node state index keys).state node = some (state.evict index keys) :=
  update_self ..

variable {at_ : LocalNodeIndex}

theorem evictFrom_of_ne (other : at_ ≠ node) :
    (domain.evictFrom node state index keys).state at_ = domain.state at_ := update_of_ne other ..

variable (known : domain.state node = some state)

include known

theorem filledAt_evictFrom_iff :
    FilledAt (domain.evictFrom node state index keys) at_ other key ↔
      FilledAt domain at_ other key ∧ ¬(at_ = node ∧ other = index ∧ key ∈ keys) := by
  by_cases same : at_ = node
  · subst same
    simp only [FilledAt, evictFrom_self, known, Option.some.injEq, exists_eq_left', true_and]
    exact mem_evict_iff
  · simp [FilledAt, evictFrom_of_ne same, same]

variable (index keys) in
theorem shrinks_evictFrom :
    Shrinks domain (domain.evictFrom node state index keys) where
  byTag at_ := by
    by_cases same : at_ = node
    · subst same
      rw [evictFrom_self, known]
      rfl
    · rw [evictFrom_of_ne same]
  filled _ _ _ filled := ((filledAt_evictFrom_iff known).mp filled).1
  readers _ := Subset.refl _
  recorded _ _ _ _ _ recorded := recorded

theorem evicts_evictFrom {calls : LocalNodeIndex → Index → List K → Prop}
    (call : calls node index keys) :
    Evicts calls domain (domain.evictFrom node state index keys) where
  toShrinks := shrinks_evictFrom index keys known
  lost at_ other key filled := by
    by_cases evicted : at_ = node ∧ other = index ∧ key ∈ keys
    · obtain ⟨rfl, rfl, isKey⟩ := evicted
      exact .inr ⟨keys, isKey, call⟩
    · exact .inl ((filledAt_evictFrom_iff known).mpr ⟨filled, evicted⟩)

theorem Rewritten.evictFrom (rewritten : Rewritten domain tag key) :
    Rewritten (domain.evictFrom node state index keys) tag key ∨
      Direct (domain.evictFrom node state index keys) node index keys tag path key := by
  refine or_iff_not_imp_right.mpr fun independent => ⟨rewritten.recorded, ?_⟩
  intro rewriter target cols upstream downstream recorded named other mem
  obtain ⟨at_, isColumns, filledAt⟩ :=
    rewritten.filled rewriter target cols upstream downstream recorded named other mem
  by_contra lost
  refine lost ⟨at_, isColumns, (filledAt_evictFrom_iff known).mpr ⟨filledAt, ?_⟩⟩
  rintro ⟨rfl, rfl, evicted⟩
  obtain rfl := isColumns
  exact independent (.inr ⟨rewriter, upstream, downstream, recorded, named, other, mem, evicted,
    lost⟩)

theorem Justified.evictFrom (justified : Justified domain tag path key) :
    Justified (domain.evictFrom node state index keys) tag path key ∨
      Direct (domain.evictFrom node state index keys) node index keys tag path key := by
  rcases justified with ⟨source, at_, isSource, isTrigger, filled⟩ | rewritten
  · by_cases lost : source = node ∧ at_ = index ∧ key ∈ keys
    · obtain ⟨sameNode, sameIndex, evicted⟩ := lost
      subst sameNode sameIndex
      exact .inr (.inl ⟨isSource, isTrigger, evicted⟩)
    · exact .inl (.inl ⟨source, at_, isSource, isTrigger,
        (filledAt_evictFrom_iff known).mpr ⟨filled, lost⟩⟩)
  · exact (rewritten.evictFrom known).imp_left .inr

end

theorem DependableExcept.evictFrom {state : NodeState K} (index : Index) (keys : List K)
    (known : domain.state node = some state) (holds : DependableExcept layout domain pending) :
    DependableExcept layout (domain.evictFrom node state index keys) fun tag path key =>
      pending tag path key ∨
        Direct (domain.evictFrom node state index keys) node index keys tag path key := by
  intro entry mem isLocal key filled
  have filledBefore := filled.shrinks (shrinks_evictFrom index keys known)
  rcases holds entry mem isLocal key filledBefore with justified | isPending
  · exact (justified.evictFrom known).imp_right .inr
  · exact .inr (.inl isPending)

/-! ## Readers -/

/-- Only keys of readers may be lost. -/
structure SameStates (before after : DomainState K) : Prop where
  state : after.state = before.state
  remappedKeys : after.remappedKeys = before.remappedKeys
  readers : ∀ node, after.readers node ⊆ before.readers node

section

omit [DecidableEq K]

section

variable (same : SameStates before after)

include same

theorem SameStates.filledAt_iff {index : Index} :
    FilledAt after node index key ↔ FilledAt before node index key := by
  rw [FilledAt, FilledAt, same.state]

theorem SameStates.shrinks : Shrinks before after where
  byTag node := by rw [same.state]
  filled _ _ _ filled := same.filledAt_iff.mp filled
  readers := same.readers
  recorded _ _ _ _ _ known := by rwa [same.remappedKeys] at known

theorem SameStates.evicts {calls : LocalNodeIndex → Index → List K → Prop} :
    Evicts calls before after where
  toShrinks := same.shrinks
  lost _ _ _ filled := .inl (same.filledAt_iff.mpr filled)

theorem SameStates.justified (justified : Justified before tag path key) :
    Justified after tag path key := by
  refine justified.imp ?_ fun rewritten => ⟨?_, ?_⟩
  · rintro ⟨source, index, isSource, isTrigger, filled⟩
    exact ⟨source, index, isSource, isTrigger, same.filledAt_iff.mpr filled⟩
  · rw [same.remappedKeys]
    exact rewritten.recorded
  · rw [same.remappedKeys]
    intro node target columns upstream downstream recorded named other mem
    exact (rewritten.filled node target columns upstream downstream recorded named other mem).imp
      fun index filled => ⟨filled.1, same.filledAt_iff.mpr filled.2⟩

theorem SameStates.dependableExcept
    (holds : DependableExcept layout before pending) : DependableExcept layout after pending := by
  intro entry mem inside key filled
  have filledBefore := filled.shrinks same.shrinks
  exact (holds entry mem inside key filledBefore).imp_left same.justified

end

theorem SameStates.trans (first : SameStates before after)
    (second : SameStates after last) : SameStates before last :=
  ⟨second.state.trans first.state, second.remappedKeys.trans first.remappedKeys,
    fun node => Subset.trans (second.readers node) (first.readers node)⟩

end

variable (keys : List K)

theorem sameStates_processEviction (segment : ReplayPathSegment) :
    SameStates domain (processEviction layout keys domain segment) := by
  rw [processEviction]
  split
  · refine ⟨rfl, rfl, fun node => ?_⟩
    by_cases same : node = segment.node
    · subst same
      simp
    · simp [update_of_ne same]
  · exact ⟨rfl, rfl, fun _ => Subset.refl _⟩

theorem sameStates_walkPath (path : List ReplayPathSegment) (keys : List K) :
    SameStates domain (walkPath layout path keys domain) := by
  induction path generalizing domain with
  | nil => exact ⟨rfl, rfl, fun _ => Subset.refl _⟩
  | cons segment path ih => exact (sameStates_processEviction keys segment).trans ih

theorem walkPath_evicts {path : List ReplayPathSegment} {segment : ReplayPathSegment}
    (mem : segment ∈ path) (isReader : layout.isReader segment.node = true)
    (evicted : key ∈ keys) : key ∉ (walkPath layout path keys domain).readers segment.node := by
  induction path generalizing domain with
  | nil => nomatch mem
  | cons first path ih =>
    rcases mem_cons.mp mem with same | later
    · subst same
      intro left
      have still := (sameStates_walkPath path keys).readers _ left
      simp [processEviction, isReader, evicted] at still
    · exact ih later

end

end ReadySet.Domain
