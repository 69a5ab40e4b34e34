import Mathlib.Data.Finmap
import ReadySet.Dataflow.Processing

/-!
Owns the bookkeeping of the replays a node has to redo once the holes they
missed in are filled (`Waiting`): registering the misses of a replay
(`Domain::on_replay_misses`), and what a finished partial replay does to the
replays that wait for it (the end of `Domain::handle_replay`).

A hash map is a finite map, a hash set the list of its members in the order
they are iterated. The maps compare the keys of holes and redos by
`KeyComparison::eq`, for which a point is the range from it to itself, so a hole or
a redo has the bounds of its key. A redo that is issued again is a value of the output; the
source groups them into `RequestPartialReplay` packets by all but their keys.
Does not own the requests for the holes, nor remapped keys kept for evictions.
-/

namespace ReadySet.Domain

open Data Dataflow

universe u

variable {V : Type u}

/-- A key as `KeyComparison::eq` sees it: the bounds of the keys it stands for. -/
abbrev ComparedKey (V : Type u) := Bound (Key V) × Bound (Key V)

def compared (key : KeyComparison V) : ComparedKey V := (key.startBound, key.endBound)

theorem compared_eq_iff [LinearOrder V] {left right : KeyComparison V} :
    compared left = compared right ↔ left.eq right = true := by
  rw [KeyComparison.eq_iff, compared, compared, Prod.mk.injEq]

structure Redo (V : Type u) where
  tag : Tag
  replayKey : ComparedKey V
  unishard : Bool
  requestingShard : Nat
  requestingReplica : Nat
deriving DecidableEq, Repr

structure Hole (V : Type u) where
  node : LocalNodeIndex
  columnIndices : List Nat
  key : ComparedKey V
deriving DecidableEq, Repr

structure ColumnMiss (V : Type u) where
  node : LocalNodeIndex
  columnIndices : List Nat
  missedKeys : List (KeyComparison V)
deriving DecidableEq, Repr

structure Waiting (V : Type u) where
  /-- For each eventual redo, how many holes are we waiting for? -/
  holes : Finmap fun _ : Redo V => Nat
  /-- For each hole, which redos do we expect we'll have to do? -/
  redos : Finmap fun _ : Hole V => List (Redo V)

def Waiting.default : Waiting V := ⟨∅, ∅⟩

section

variable [DecidableEq V]

/-! ## Misses -/

/-- `w.holes.entry(redo).or_default().add_assign(1)`. -/
def Waiting.addHole (w : Waiting V) (redo : Redo V) : Finmap fun _ : Redo V => Nat :=
  w.holes.insert redo ((w.holes.lookup redo).getD 0 + 1)

/-- One missed key of `Domain::on_replay_misses`; also says whether the hole
has to be requested. -/
def Waiting.register (redo : Redo V) (w : Waiting V) (hole : Hole V) : Bool × Waiting V :=
  match w.redos.lookup hole with
  | some redos =>
    if redo ∈ redos then (false, w)
    else (false, ⟨w.addHole redo, w.redos.insert hole (redos ++ [redo])⟩)
  | none => (true, ⟨w.addHole redo, w.redos.insert hole [redo]⟩)

/-- The holes whose redos contain a redo. -/
def Waiting.registeredOn (w : Waiting V) (redo : Redo V) : Finset (Hole V) :=
  w.redos.keys.filter fun hole => redo ∈ (w.redos.lookup hole).getD []

def ColumnMiss.holes (miss : ColumnMiss V) : List (Hole V) :=
  miss.missedKeys.map fun key => ⟨miss.node, miss.columnIndices, compared key⟩

/-- The holes of one missed replay are registered one after the other. -/
def Waiting.registerAll (redo : Redo V) (holes : List (Hole V)) (w : Waiting V) :
    List (Hole V) × Waiting V :=
  holes.foldl (fun (requested, w) hole =>
    let (new, w) := w.register redo hole
    (if new then requested ++ [hole] else requested, w)) ([], w)

structure ReplayMisses (V : Type u) where
  missIn : LocalNodeIndex
  missColumns : List Nat
  /-- The replay key and the missed key of each miss. -/
  missedKeys : List (KeyComparison V × KeyComparison V)
  wasSingleShard : Bool
  requestingShard : Nat
  requestingReplica : Nat
  neededFor : Tag
  /-- What the node makes of a miss in generated columns (`handle_upquery`). -/
  handleUpquery : Option (ColumnMiss V → ReadySetResult (List (ColumnMiss V)))

/-- The misses that one missed key stands for. -/
def ReplayMisses.remap (misses : ReplayMisses V) (missKey : KeyComparison V) :
    ReadySetResult (List (ColumnMiss V)) :=
  let miss : ColumnMiss V := ⟨misses.missIn, misses.missColumns, [missKey]⟩
  match misses.handleUpquery with
  | some handleUpquery => do
      let remapped ← handleUpquery miss
      if remapped.isEmpty then
        .error (.internal "columns are generated, but could not remap an upquery")
      else pure remapped
  | none => .ok [miss]

def ReplayMisses.redo (misses : ReplayMisses V) (replayKey : KeyComparison V) : Redo V where
  tag := misses.neededFor
  replayKey := compared replayKey
  unishard := misses.wasSingleShard
  requestingShard := misses.requestingShard
  requestingReplica := misses.requestingReplica

/-- One round of the loop of `Domain::on_replay_misses`. -/
def ReplayMisses.registerKey (misses : ReplayMisses V) (state : List (Hole V) × Waiting V)
    (keys : KeyComparison V × KeyComparison V) : ReadySetResult (List (Hole V) × Waiting V) := do
  let remapped ← misses.remap keys.2
  let (new, w) := state.2.registerAll (misses.redo keys.1) (remapped.flatMap ColumnMiss.holes)
  pure (state.1 ++ new, w)

/-- `Domain::on_replay_misses`: the holes to request, and what the node waits
for afterwards. -/
def onReplayMisses (misses : ReplayMisses V) (waiting : Option (Waiting V)) :
    ReadySetResult (List (Hole V) × Waiting V) :=
  misses.missedKeys.foldlM misses.registerKey ([], waiting.getD .default)

/-! ## Finished replays -/

/-- One redo of a filled hole: its counter goes down, and it is kept when that
was the last hole. -/
def Waiting.notify (filled : List (Redo V) × Finmap fun _ : Redo V => Nat) (redo : Redo V) :
    ReadySetResult (List (Redo V) × Finmap fun _ : Redo V => Nat) :=
  let (ready, holes) := filled
  match holes.lookup redo with
  | none => .error (.panicked "called `Option::unwrap()` on a `None` value")
  | some 0 => .error (.panicked "attempt to subtract with overflow")
  | some (left + 1) =>
    if left = 0 then .ok (ready ++ [redo], holes.erase redo)
    else .ok (ready, holes.insert redo left)

def Waiting.fill (w : Waiting V) (hole : Hole V) : ReadySetResult (List (Redo V) × Waiting V) :=
  match w.redos.lookup hole with
  | none => .error (.internal "got backfill for unnecessary hole")
  | some redos => do
      let (ready, holes) ← redos.foldlM Waiting.notify ([], w.holes)
      pure (ready, ⟨holes, w.redos.erase hole⟩)

/-- The filled holes of a finished replay, one after the other. -/
def Waiting.fillAll (w : Waiting V) : List (Hole V) → ReadySetResult (List (Redo V) × Waiting V)
  | [] => .ok ([], w)
  | hole :: holes => do
      let (ready, w) ← w.fill hole
      let (reissued, w) ← w.fillAll holes
      pure (ready ++ reissued, w)

/-- A partial replay that has finished, to the node that waits. -/
structure FinishedReplay (V : Type u) where
  target : LocalNodeIndex
  columns : List Nat
  forKeys : List (KeyComparison V)

def FinishedReplay.holes (finished : FinishedReplay V) : List (Hole V) :=
  finished.forKeys.map fun key => ⟨finished.target, finished.columns, compared key⟩

/-- The end of `Domain::handle_replay` for a partial replay: the redos to issue
again, and what the node still waits for. -/
def finishReplay (finished : FinishedReplay V) (waiting : Option (Waiting V)) :
    ReadySetResult (List (Redo V) × Option (Waiting V)) :=
  match waiting with
  | none => .error (.internal "got unexpected replay")
  | some waiting => do
      let (reissued, waiting) ← waiting.fillAll finished.holes
      if waiting.holes.keys.Nonempty then
        if waiting.redos.keys.Nonempty then pure (reissued, some waiting)
        else .error (.panicked "assertion failed: !waiting.redos.is_empty()")
      else
        if waiting.redos.keys.Nonempty then
          .error (.panicked "assertion failed: waiting.redos.is_empty()")
        else pure (reissued, none)

/-! ## Steps -/

inductive Event (V : Type u) where
  | missed (misses : ReplayMisses V)
  | finished (replay : FinishedReplay V)

/-- The holes a step requests and the redos it issues again. -/
structure Output (V : Type u) where
  requested : List (Hole V)
  reissued : List (Redo V)
deriving DecidableEq

/-- One step of the bookkeeping of a node. An error ends the domain. -/
def step (waiting : Option (Waiting V)) :
    Event V → ReadySetResult (Output V × Option (Waiting V))
  | .missed misses => do
      let (requested, w) ← onReplayMisses misses waiting
      pure (⟨requested, []⟩, some w)
  | .finished replay => do
      let (reissued, waiting) ← finishReplay replay waiting
      pure (⟨[], reissued⟩, waiting)

end

end ReadySet.Domain
