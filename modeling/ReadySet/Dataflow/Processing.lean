import ReadySet.Library.Machine
import ReadySet.Library.Signed
import ReadySet.Data.Key

/-!
Owns what every operator is handed and hands back: records, the replay
context, misses and lookups, the states an operator may look into, and the
lookup itself (`Ingredient::lookup`).

A `State` here is only the interface the operators use. `FullOn` is what such a
state promises when it is fully materialized: the lookups on a column list
return exactly the table's rows with that key.
-/

namespace ReadySet.Dataflow

open Data Library

universe u

variable {V : Type u}

/-! ## Records -/

/-- `Record`: a row that is inserted or deleted. -/
abbrev Record (V : Type u) := Signed (Row V)

abbrev LocalNodeIndex := Nat
abbrev Tag := Nat

inductive Side where
  | left
  | right
deriving DecidableEq, Repr

def otherSide : Side → Side
  | .left => .right
  | .right => .left

/-- The errors the modelled operators return. -/
inductive ReadySetError where
  | internal (message : String)
  | unsupported (message : String)
  | indexNotFound (node : LocalNodeIndex) (columns : List Nat)
  | invalidRecordLength
  | replicationOffsetLogDifferent (left right : String)
  | failedBaseOps (table : String)
  | resnapshotNeeded
  | dfValueConversionError (srcType targetType details : String)
  | projectExprInvalidColumnIndex (index : Nat)
  | recipeInvariantViolated (message : String)
  /-- Not an error value of the source: the process panics. -/
  | panicked (message : String)
deriving DecidableEq, Repr

abbrev ReadySetResult := Except ReadySetError

/-! ## Replay context, misses and results -/

/-- `ReplayContext`. The key set is given in its iteration order. -/
inductive ReplayContext (V : Type u) where
  | none
  | partial_ (keyCols : List Nat) (keys : List (KeyComparison V)) (requestingShard : Nat)
      (requestingReplica : Nat) (tag : Tag) (unishard : Bool)
  | full (last : Bool)
deriving DecidableEq, Repr

def ReplayContext.key : ReplayContext V → Option (List Nat)
  | .partial_ keyCols _ _ _ _ _ => some keyCols
  | .none => Option.none
  | .full _ => Option.none

inductive MissReplayKey (V : Type u) where
  | recordColumns (columns : List Nat)
  | range (lower upper : Bound (Key V))
deriving DecidableEq, Repr

inductive MissLookupKey (V : Type u) where
  | recordColumns (columns : List Nat)
  | key (key : KeyComparison V)
deriving DecidableEq, Repr

structure Miss (V : Type u) where
  on : LocalNodeIndex
  lookupIdx : List Nat
  lookupKey : MissLookupKey V
  replayKey : Option (MissReplayKey V)
  record : Row V
deriving DecidableEq, Repr

/-- `Lookup`: a lookup an upquery response depended on. -/
structure Lookup (V : Type u) where
  on : LocalNodeIndex
  cols : List Nat
  key : KeyComparison V
deriving DecidableEq, Repr

structure ProcessingResult (V : Type u) where
  results : List (Record V) := []
  misses : List (Miss V) := []
  lookups : List (Lookup V) := []
deriving DecidableEq, Repr

/-- `RawProcessingResult`; the key sets are given in insertion order. -/
inductive RawProcessingResult (V : Type u) where
  | regular (result : ProcessingResult V)
  | fullReplay (rows : List (Record V)) (last : Bool)
  | capturedFull
  | replayPiece (rows : List (Record V)) (keys captured : List (KeyComparison V))
deriving DecidableEq, Repr

/-- What two consecutive parts of one input contribute together. -/
def ProcessingResult.append (first second : ProcessingResult V) : ProcessingResult V where
  results := first.results ++ second.results
  misses := first.misses ++ second.misses
  lookups := first.lookups ++ second.lookups

instance : Append (ProcessingResult V) := ⟨ProcessingResult.append⟩

section

variable (first second : ProcessingResult V)

@[simp] theorem ProcessingResult.append_results :
    (first ++ second).results = first.results ++ second.results := rfl

@[simp] theorem ProcessingResult.append_misses :
    (first ++ second).misses = first.misses ++ second.misses := rfl

end

section

variable [LinearOrder V]

/-- The replay key `MissBuilder::build` derives: the first range key of the
replay that covers the record, or else the record's own key columns. The
overriding columns are those of nodes that move columns, like joins. -/
def missReplayKey (replay : ReplayContext V) (replayKeyCols : Option (List Nat)) (record : Row V) :
    Option (MissReplayKey V) :=
  match replay with
  | .partial_ keyCols keys _ _ _ _ =>
    let columns := replayKeyCols.getD keyCols
    let recordKey := record.clonedIndices columns
    some <|
      match keys.find? fun key => (match key with | .range _ _ => true | .equal _ => false) &&
          key.contains recordKey with
      | some (.range lower upper) => .range lower upper
      | _ => .recordColumns columns
  | .none => Option.none
  | .full _ => Option.none

/-- `Miss::builder()…build()`. -/
def Miss.build (on : LocalNodeIndex) (lookupIdx : List Nat) (lookupKey : MissLookupKey V)
    (replay : ReplayContext V) (replayKeyCols : Option (List Nat)) (record : Row V) : Miss V where
  on := on
  lookupIdx := lookupIdx
  lookupKey := lookupKey
  replayKey := missReplayKey replay replayKeyCols record
  record := record

end

/-! ## Lookups -/

inductive LookupMode where
  | strict
  | weak
deriving DecidableEq, Repr

/-- `LookupResult` of a state. -/
inductive LookupResult (V : Type u) where
  | some (rows : List (Row V))
  | missing
deriving DecidableEq, Repr

/-- `IngredientLookupResult`: rows may fail one by one when they are computed
by querying through another operator. -/
inductive IngredientLookupResult (V : Type u) where
  | records (records : List (ReadySetResult (Row V)))
  | miss

/-- The part of the `State` trait that operators use. -/
structure State (V : Type u) where
  isPartial : Bool
  lookup : List Nat → Key V → LookupResult V
  lookupWeak : List Nat → Key V → Option (List (Row V))

/-- The rows a state has for a key; none on a miss. -/
def State.rowsFor (state : State V) (columns : List Nat) (key : Key V) : List (Row V) :=
  match state.lookup columns key with
  | .some rows => rows
  | .missing => []

/-- `StateMap`: the states of the nodes of one domain. -/
abbrev StateMap (V : Type u) := LocalNodeIndex → Option (State V)

/-- `DomainNodes`, as far as lookups use it: how to query through a node that
has no state of its own, for the internal nodes of the domain. -/
structure DomainNodes (V : Type u) where
  queryThrough : LocalNodeIndex → Option
    (List Nat → Key V → StateMap V → LookupMode → ReadySetResult (IngredientLookupResult V))

def DomainNodes.none : DomainNodes V where
  queryThrough _ := Option.none

/-- `IngredientLookupResult::records`. -/
def IngredientLookupResult.ofRows (rows : List (Row V)) : IngredientLookupResult V :=
  .records (rows.map .ok)

/-- `IngredientLookupResult::from`. -/
def IngredientLookupResult.ofLookup : LookupResult V → IngredientLookupResult V
  | .some rows => .ofRows rows
  | .missing => .miss

/-- `Ingredient::lookup`. -/
def ingredientLookup (parent : LocalNodeIndex) (columns : List Nat) (key : Key V)
    (nodes : DomainNodes V) (states : StateMap V) (mode : LookupMode) :
    ReadySetResult (IngredientLookupResult V) :=
  match states parent with
  | some state =>
    if mode = .weak ∧ state.isPartial then
      match state.lookupWeak columns key with
      | some rows => if rows.isEmpty then .ok .miss else .ok (.ofRows rows)
      | none => .ok .miss
    else
      .ok (.ofLookup (state.lookup columns key))
  | none =>
    match nodes.queryThrough parent with
    | some queryThrough => queryThrough columns key states mode
    | none => .error (.indexNotFound parent columns)

/-- `recs.collect::<Result<Vec<_>, _>>()`. -/
def collectRows : List (ReadySetResult (Row V)) → ReadySetResult (List (Row V))
  | [] => .ok []
  | .ok row :: rest => (collectRows rest).map (row :: ·)
  | .error error :: _ => .error error

@[simp] theorem collectRows_ok (rows : List (Row V)) : collectRows (rows.map .ok) = .ok rows := by
  induction rows with
  | nil => rfl
  | cons row rows ih => simp [collectRows, ih, Except.map]

/-! ## Fully materialized states -/

section

variable [DecidableEq V]

/-- The rows of a table whose given columns hold the key. -/
def matching (table : Multiset (Row V)) (columns : List Nat) (key : Key V) : Multiset (Row V) :=
  table.filter fun row => row.clonedIndices columns = key

section

variable (table : Multiset (Row V)) (row : Row V) (cols : List Nat)

theorem matching_cons :
    matching (row ::ₘ table) cols =
      Function.update (matching table cols) (row.clonedIndices cols)
        (row ::ₘ matching table cols (row.clonedIndices cols)) := by
  funext key
  rw [Function.update_apply]
  split
  case isTrue same =>
    subst same
    exact Multiset.filter_cons_of_pos table rfl
  case isFalse ne => exact Multiset.filter_cons_of_neg table (Ne.symm ne)

theorem matching_erase :
    matching (table.erase row) cols =
      Function.update (matching table cols) (row.clonedIndices cols)
        ((matching table cols (row.clonedIndices cols)).erase row) := by
  funext key
  rw [Function.update_apply]
  split
  case isTrue same =>
    subst same
    apply filter_erase_of_pos
    rfl
  case isFalse ne =>
    apply filter_erase_of_neg
    exact Ne.symm ne

end

/-- **A fully materialized state over `table`, indexed on `columns`.** It is
not partial, and each lookup on the columns returns exactly the table's rows
with that key. -/
structure FullOn (state : State V) (columns : List Nat) (table : Multiset (Row V)) : Prop where
  notPartial : state.isPartial = false
  lookup : ∀ key : Key V, key.length = columns.length →
    ∃ rows, state.lookup columns key = .some rows ∧ (rows : Multiset (Row V)) =
      matching table columns key

section

variable {state : State V} {cols : List Nat} {table : Multiset (Row V)}
  (full : FullOn state cols table) {key : Key V}

include full

theorem FullOn.rowsFor (length : key.length = cols.length) :
    state.lookup cols key = .some (state.rowsFor cols key) ∧
      (state.rowsFor cols key : Multiset (Row V)) = matching table cols key := by
  obtain ⟨rows, found, contents⟩ := full.lookup key length
  simp [State.rowsFor, found, contents]

theorem FullOn.ingredientLookup {parent : LocalNodeIndex} {nodes : DomainNodes V}
    {states : StateMap V} (here : states parent = some state) (length : key.length = cols.length)
    (mode : LookupMode) :
    ∃ rows, ingredientLookup parent cols key nodes states mode = .ok (.ofRows rows) ∧
      (rows : Multiset (Row V)) = matching table cols key := by
  obtain ⟨rows, found, contents⟩ := full.lookup key length
  refine ⟨rows, ?_, contents⟩
  simp [Dataflow.ingredientLookup, here, full.notPartial, found, IngredientLookupResult.ofLookup]

end

/-- A state that holds all rows of a table, whatever the columns. -/
def State.ofTable (table : List (Row V)) : State V where
  isPartial := false
  lookup columns key := .some (table.filter fun row => row.clonedIndices columns = key)
  lookupWeak _ _ := none

theorem State.ofTable_fullOn (table : List (Row V)) (cols : List Nat) :
    FullOn (State.ofTable table) cols table where
  notPartial := rfl
  lookup _ _ := ⟨_, rfl, (Multiset.filter_coe _ _).symm⟩

end

def State.holding [LinearOrder V] (table : Multiset (Row V)) : State V :=
  State.ofTable (ascending table)

theorem State.holding_fullOn [LinearOrder V] (table : Multiset (Row V)) (cols : List Nat) :
    FullOn (State.holding table) cols table := by
  have full := State.ofTable_fullOn (ascending table) cols
  rwa [coe_ascending] at full

end ReadySet.Dataflow
