import ReadySet.DataflowState.KeyedState

/-!
Owns how a domain handles evictions (`Domain::handle_eviction`): keys that leave
one node's state also leave the nodes below, along the replay paths that depend on
them (`ReplayPaths::downstream_dependent_paths`), and the same from there on.
A path's keys are those of its source, except for downstream keys that were
rewritten to other upstream keys, which `RemappedKeys` records.

Keys are points, replay paths are partial, and a state is what is filled in each of
its indexes. The recursion has fuel. Does not own how a node chooses the keys to
evict, the sizes of states, egress and sharder nodes, which send evictions on, and
the operators' own bookkeeping.
-/

namespace ReadySet.Domain

open Dataflow DataflowState

variable {K : Type}

/-! ## Replay paths -/

/-- `TriggerEndpoint`, without the senders of `End`. -/
inductive TriggerEndpoint where
  | none
  | start (index : Index)
  | ends
  | locally (index : Index)
deriving DecidableEq, Repr

/-- `ReplayPathSegment` of a partial path. -/
structure ReplayPathSegment where
  node : LocalNodeIndex
  partialIndex : Index
  isTarget : Bool
deriving DecidableEq, Repr

/-- `ReplayPath`; its segments are never empty. -/
structure ReplayPath where
  source : Option LocalNodeIndex
  targetIndex : Option Index
  before : List ReplayPathSegment
  lastSegment : ReplayPathSegment
  trigger : TriggerEndpoint
deriving DecidableEq, Repr

namespace ReplayPath

def path (self : ReplayPath) : List ReplayPathSegment := self.before ++ [self.lastSegment]

def targetNode (self : ReplayPath) : Option LocalNodeIndex :=
  match self.path.find? ReplayPathSegment.isTarget with
  | some segment => some segment.node
  | none => self.source

/-- The index at the source of a path that starts in the domain. -/
def triggerKey (self : ReplayPath) : Option Index :=
  match self.trigger with
  | .locally key => some key
  | .start key => some key
  | _ => none

end ReplayPath

/-- The replay paths of a domain in the order of their tags, and its readers. -/
structure Layout where
  replayPaths : List (Tag × ReplayPath)
  isReader : LocalNodeIndex → Bool

def Layout.get (layout : Layout) (tag : Tag) : Option ReplayPath := layout.replayPaths.lookup tag

/-! ## States -/

/-- `RemappedKeys`: for a node that generates columns, the source of the columns,
their indices there and upstream keys, the downstream tags with their keys. -/
abbrev RemappedKeys (K : Type) :=
  LocalNodeIndex → LocalNodeIndex → List Nat → List K → Option (List (Tag × List K))

/-- The indexes of a partial state by the tags that fill them, and the keys that are
filled in each. -/
structure NodeState (K : Type) where
  byTag : Tag → Option Index
  filled : Index → List K

structure DomainState (K : Type) where
  state : LocalNodeIndex → Option (NodeState K)
  /-- The keys that are filled in readers. -/
  readers : LocalNodeIndex → List K
  remappedKeys : RemappedKeys K

section

variable [DecidableEq K]

/-- Keys leave an index. -/
def NodeState.evict (state : NodeState K) (index : Index) (keys : List K) : NodeState K :=
  { state with
    filled := Function.update state.filled index
      ((state.filled index).filter fun key => key ∉ keys) }

def NodeState.evictKeys (state : NodeState K) (tag : Tag) (keys : List K) : Option (NodeState K) :=
  (state.byTag tag).map fun index => state.evict index keys

def RemappedKeys.insert (remapped : RemappedKeys K) (missIn upstreamNode : LocalNodeIndex)
    (columns : List Nat) (missedKeys : List K) (downstreamKey : K) (downstreamTag : Tag) :
    RemappedKeys K := fun node target cols keys =>
  if node = missIn ∧ target = upstreamNode ∧ cols = columns ∧ keys = missedKeys then
    let tags := (remapped node target cols keys).getD []
    let downstream := (tags.lookup downstreamTag).getD []
    some ((downstreamTag, downstream ++ [downstreamKey]) ::
      tags.filter fun entry => entry.1 ≠ downstreamTag)
  else remapped node target cols keys

/-- The recorded keys for an eviction along a path. -/
def RemappedKeys.along (remapped : RemappedKeys K) (path : ReplayPath) (keys : List K) :
    Option (List (Tag × List K)) :=
  path.targetNode.bind fun target =>
    path.targetIndex.bind fun targetIndex =>
      remapped path.lastSegment.node target targetIndex.columns keys

/-- `RemappedKeys::remove` for an eviction along a path. -/
def RemappedKeys.remove (remapped : RemappedKeys K) (path : ReplayPath) (keys : List K) :
    RemappedKeys K := fun node target columns others =>
  if node = path.lastSegment.node ∧ path.targetNode = some target ∧
      path.targetIndex.map Index.columns = some columns ∧ others = keys then none
  else remapped node target columns others

/-- How handling an eviction fails. -/
inductive Failure where
  | panicked (message : String)
  | noSuchNode (node : LocalNodeIndex)
  | outOfFuel
deriving DecidableEq, Repr

variable (layout : Layout)

structure Dependent (K : Type) where
  tag : Tag
  path : ReplayPath
  keys : List K

/-- The path of a recorded tag. -/
def remappedDependent (entry : Tag × List K) : Except Failure (Dependent K) :=
  match layout.get entry.1 with
  | some path => .ok ⟨entry.1, path, entry.2⟩
  | none => .error (.panicked "called `Option::unwrap()` on a `None` value")

/-- One path of `ReplayPaths::downstream_dependent_paths`. -/
def pathDependents (node : LocalNodeIndex) (index : Index) (keys : List K) (tag : Tag)
    (path : ReplayPath) (remapped : RemappedKeys K) :
    Except Failure (List (Dependent K) × RemappedKeys K) :=
  if path.source = some node then
    match path.triggerKey with
    | some key =>
      match remapped.along path keys with
      | some downstream => do
          let found ← downstream.mapM (remappedDependent layout)
          return (found, remapped.remove path keys)
      | none => .ok (if key = index then [⟨tag, path, keys⟩] else [], remapped)
    | none => .ok ([], remapped)
  else .ok ([], remapped)

/-- `ReplayPaths::downstream_dependent_paths`, for some of the paths. -/
def dependentsOn (node : LocalNodeIndex) (index : Index) (keys : List K) :
    List (Tag × ReplayPath) → RemappedKeys K → Except Failure (List (Dependent K) × RemappedKeys K)
  | [], remapped => .ok ([], remapped)
  | entry :: paths, remapped => do
      let (found, remapped) ← pathDependents layout node index keys entry.1 entry.2 remapped
      let (others, remapped) ← dependentsOn node index keys paths remapped
      return (found ++ others, remapped)

/-- The eviction from one segment's node: `Node::process_eviction` of a reader. -/
def processEviction (keys : List K) (domain : DomainState K)
    (segment : ReplayPathSegment) : DomainState K :=
  if layout.isReader segment.node then
    { domain with
      readers := Function.update domain.readers segment.node
        ((domain.readers segment.node).filter fun key => key ∉ keys) }
  else domain

def walkPath (path : List ReplayPathSegment) (keys : List K) (domain : DomainState K) : DomainState K :=
  path.foldl (processEviction layout keys) domain

/-- The eviction of keys of a path, before those that depend on them: what is left
to trigger. -/
def evictAlong (dependent : Dependent K) (domain : DomainState K) :
    Except Failure (DomainState K × Option (Index × LocalNodeIndex)) :=
  let domain := walkPath layout dependent.path.path dependent.keys domain
  match dependent.path.trigger with
  | .locally _ =>
    let dest := dependent.path.lastSegment
    if layout.isReader dest.node then .ok (domain, none)
    else
      match domain.state dest.node with
      | none => .ok (domain, none)
      | some state =>
        match state.evictKeys dependent.tag dependent.keys with
        | some state =>
          .ok ({ domain with state := Function.update domain.state dest.node (some state) },
            some (dest.partialIndex, dest.node))
        | none => .ok (domain, none)
  | .start _ =>
    match dependent.path.source with
    | none => .error (.panicked "called `Option::unwrap()` on a `None` value")
    | some source =>
      match domain.state source with
      | none => .error (.panicked "no entry found for key")
      | some state =>
        let state := (state.evictKeys dependent.tag dependent.keys).getD state
        .ok ({ domain with state := Function.update domain.state source (some state) }, none)
  | _ => .ok (domain, none)

/-- The loop body of `trigger_downstream_evictions`, with the function itself. -/
def evictDependent
    (trigger : Index → List K → LocalNodeIndex → DomainState K → Except Failure (DomainState K))
    (domain : DomainState K) (dependent : Dependent K) : Except Failure (DomainState K) := do
  let (domain, triggered) ← evictAlong layout dependent domain
  match triggered with
  | some (index, node) => trigger index dependent.keys node domain
  | none => return domain

def triggerDownstreamEvictions : Nat → Index → List K → LocalNodeIndex → DomainState K →
    Except Failure (DomainState K)
  | 0, _, _, _, _ => .error .outOfFuel
  | fuel + 1, index, keys, node, domain => do
      let (dependents, remapped) ←
        dependentsOn layout node index keys layout.replayPaths domain.remappedKeys
      dependents.foldlM (evictDependent layout (triggerDownstreamEvictions fuel))
        { domain with remappedKeys := remapped }

/-- The packets that evict. `Evict` has the index and the keys that the state of the
node chose to evict. -/
inductive EvictionPacket (K : Type) where
  | evict (node : LocalNodeIndex) (index : Index) (keys : List K)
  | evictKeys (dst : LocalNodeIndex) (keys : List K) (tag : Tag)

def handleEviction (fuel : Nat) (domain : DomainState K) :
    EvictionPacket K → Except Failure (DomainState K)
  | .evict node index keys =>
    if layout.isReader node then
      .ok { domain with
        readers := Function.update domain.readers node
          ((domain.readers node).filter fun key => key ∉ keys) }
    else
      match domain.state node with
      | none => .error (.panicked "no entry found for key")
      | some state =>
        let domain := { domain with
          state := Function.update domain.state node (some (state.evict index keys)) }
        if keys.isEmpty then .ok domain
        else triggerDownstreamEvictions layout fuel index keys node domain
  | .evictKeys dst keys tag =>
    match layout.get tag with
    | none => .ok domain
    | some path =>
      match path.path.dropWhile fun segment => segment.node ≠ dst with
      | [] => .error (.noSuchNode dst)
      | segments =>
        let domain := walkPath layout segments keys domain
        match path.trigger with
        | .none => .ok domain
        | .start _ => .ok domain
        | _ =>
          let target := path.lastSegment
          if layout.isReader target.node then .ok domain
          else
            match domain.state target.node with
            | none => .error (.panicked "no entry found for key")
            | some state =>
              match state.evictKeys tag keys with
              | none => .ok domain
              | some state =>
                triggerDownstreamEvictions layout fuel target.partialIndex keys
                  target.node { domain with
                    state := Function.update domain.state target.node (some state) }

end

end ReadySet.Domain
