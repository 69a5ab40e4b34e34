import ReadySet.Ops.Union.Operator

/-!
Owns what a union's partial replays are for, apart from how the operator
buffers them: the events that reach the operator, and the ledger that says for
every parent and replayed key which output rows that parent has contributed.

A key is complete once every parent has contributed. Does not own the
operator's maps; `Represents` in the next module connects the two.
-/

namespace ReadySet.Ops.Union

open Data Library Dataflow

universe u

variable {V : Type u}

/-! ## Events -/

/-- The keys a replay piece answers, and for whom. -/
structure Request (V : Type u) where
  tag : Tag
  keys : List (KeyComparison V)
  requestingShard : Nat
  requestingReplica : Nat
deriving DecidableEq, Repr

def Request.replay (request : Request V) (key : KeyComparison V) : BufferedReplayKey V where
  tag := request.tag
  key := key
  requestingShard := request.requestingShard
  requestingReplica := request.requestingReplica

theorem Request.replay_injective (request : Request V) : Function.Injective request.replay :=
  fun _ _ same => congrArg BufferedReplayKey.key same

/-- The replays a piece belongs to. -/
def Request.replays (request : Request V) : List (BufferedReplayKey V) :=
  request.keys.map request.replay

/-- A message of a parent. -/
inductive Event (V : Type u) where
  | update (sender : LocalNodeIndex) (batch : List (Record V))
  | piece (sender : LocalNodeIndex) (rows : List (Record V)) (request : Request V)
  | full (sender : LocalNodeIndex) (rows : List (Record V)) (last : Bool)
deriving DecidableEq, Repr

/-- The operator's step on a message; the key columns of a replay are those of
its tag. -/
def step [LinearOrder V] (hashing : Hashing V) (keyCols : Tag → List Nat) (union : Union V) :
    Event V → ReadySetResult (RawProcessingResult V × Union V)
  | .update sender batch => union.onInputRaw hashing sender batch .none
  | .full sender rows last => union.onInputRaw hashing sender rows (.full last)
  | .piece sender rows request =>
    union.onInputRaw hashing sender rows (.partial_ (keyCols request.tag) request.keys
      request.requestingShard request.requestingReplica request.tag false)

/-! ## The parents of a union -/

section

variable (emit : List (LocalNodeIndex × List Nat))

def parents : List LocalNodeIndex := emit.map Prod.fst

/-- The columns a parent contributes. -/
def emitOf (parent : LocalNodeIndex) : List Nat := (emit.lookup parent).getD []

variable {emit}

section

variable {parent : LocalNodeIndex} (isParent : parent ∈ parents emit)

include isParent

theorem lookup_emit : emit.lookup parent = some (emitOf emit parent) := by
  have found : (emit.lookup parent).isSome = true := by
    obtain ⟨entry, mem, rfl⟩ := List.mem_map.mp isParent
    rw [Option.isSome_iff_ne_none, ne_eq, List.lookup_eq_none_iff]
    intro absent
    simpa using absent entry mem
  obtain ⟨cols, same⟩ := Option.isSome_iff_exists.mp found
  simp [emitOf, same]

theorem emitOf_mem : (parent, emitOf emit parent) ∈ emit := by
  have found := lookup_emit isParent
  generalize emitOf emit parent = cols at found ⊢
  obtain ⟨before, after, rfl, _⟩ := List.lookup_eq_some_iff.mp found
  simp

end

end

/-! ## The ledger -/

/-- What each parent has contributed to each replay, in output rows; `none`
before the parent's piece. -/
abbrev Ledger (V : Type u) := LocalNodeIndex → BufferedReplayKey V → Option (List (Record V))

section

variable [LinearOrder V] (emit : List (LocalNodeIndex × List Nat)) (keyCols : Tag → List Nat)

/-- The output records of a replay: those with the replayed key in the replayed
columns. -/
def selected (replay : BufferedReplayKey V) (records : List (Record V)) : List (Record V) :=
  records.filter (inKey (keyCols replay.tag) replay.key)

/-- A parent's update follows the pieces it has sent. -/
def Ledger.follow (ledger : Ledger V) (sender : LocalNodeIndex) (batch : List (Record V)) :
    Ledger V := fun parent replay =>
  if parent = sender then
    (ledger parent replay).map
      (· ++ selected keyCols replay (project (emitOf emit sender) batch))
  else ledger parent replay

/-- A parent's piece for a list of replays. -/
def Ledger.receive (ledger : Ledger V) (sender : LocalNodeIndex) (rows : List (Record V))
    (replays : List (BufferedReplayKey V)) : Ledger V := fun parent replay =>
  if parent = sender ∧ replay ∈ replays then
    some (selected keyCols replay (project (emitOf emit sender) rows))
  else ledger parent replay

def Ledger.after (ledger : Ledger V) : Event V → Ledger V
  | .update sender batch => ledger.follow emit keyCols sender batch
  | .piece sender rows request => ledger.receive emit keyCols sender rows request.replays
  | .full _ _ _ => ledger

/-- The ledger after a sequence of events. -/
def ledgerOf (events : List (Event V)) : Ledger V :=
  events.foldl (Ledger.after emit keyCols) fun _ _ => none

/-- Every parent has sent its piece. -/
def complete (ledger : Ledger V) (replay : BufferedReplayKey V) : Bool :=
  (parents emit).all fun parent => (ledger parent replay).isSome

/-- Some parent has sent its piece, and another one has not. -/
def Pending (ledger : Ledger V) (replay : BufferedReplayKey V) : Prop :=
  (∃ parent ∈ parents emit, (ledger parent replay).isSome) ∧ complete emit ledger replay = false

def contributions (ledger : Ledger V) (replay : BufferedReplayKey V) : List (Record V) :=
  (parents emit).flatMap fun parent => (ledger parent replay).getD []

variable {emit keyCols} {ledger : Ledger V}

@[simp] theorem ledgerOf_concat (events : List (Event V)) (event : Event V) :
    ledgerOf emit keyCols (events ++ [event]) =
      (ledgerOf emit keyCols events).after emit keyCols event := by
  simp [ledgerOf]

section

variable (sender : LocalNodeIndex) (batch : List (Record V))

@[simp] theorem isSome_follow (parent : LocalNodeIndex) (replay : BufferedReplayKey V) :
    (ledger.follow emit keyCols sender batch parent replay).isSome =
      (ledger parent replay).isSome := by
  rw [Ledger.follow]
  split <;> simp

@[simp] theorem complete_follow :
    complete emit (ledger.follow emit keyCols sender batch) = complete emit ledger := by
  funext replay
  simp [complete]

end

variable {replay : BufferedReplayKey V}

theorem receive_of_not_mem {sender parent : LocalNodeIndex} {rows : List (Record V)}
    {replays : List (BufferedReplayKey V)} (absent : replay ∉ replays) :
    ledger.receive emit keyCols sender rows replays parent replay = ledger parent replay := by
  simp [Ledger.receive, absent]

section

omit [LinearOrder V]

section

variable {left right : Ledger V} (same : ∀ parent, left parent replay = right parent replay)

include same

theorem complete_congr : complete emit left replay = complete emit right replay := by
  simp [complete, same]

theorem pending_congr : Pending emit left replay ↔ Pending emit right replay := by
  simp [Pending, same, complete_congr same]

end

theorem not_complete_of_none {sender : LocalNodeIndex} (isParent : sender ∈ parents emit)
    (missing : ledger sender replay = none) : complete emit ledger replay = false := by
  rw [complete, List.all_eq_false]
  exact ⟨sender, isParent, by simp [missing]⟩

end

end

/-- Two parents that contribute their first columns. -/
def twoParents : List (LocalNodeIndex × List Nat) := [(0, [0]), (1, [0])]

end ReadySet.Ops.Union
