import ReadySet.Replicators.Postgres.Connector

/-!
Owns what replication from Postgres applies. `mainLoop_applies` is about every
stream of events in order and every number of calls: what the tables performed,
what is still being collected and what has not been read are together the
operations of the stream, table by table and in its order, as long as no commit
or keepalive request overtakes later events of the table being collected.

The argument is one invariant of the loop of `next_action` (`Batch`): while a
batch is collected, its position lies above the stored offset of its table and
below every later event of it, apart from the rows of the same LSN that come
next.
-/

namespace ReadySet.Replicators

open Data Dataflow Node WalEvent List

universe u

variable {V : Type u} {event : WalEvent V}

/-! ## What a stream asks for -/

namespace WalEvent

/-- Row, truncate and DDL events; the others only carry a position. -/
def isData : WalEvent V → Bool
  | .row _ _ _ => true
  | .truncate _ => true
  | .ddlEvent _ _ => true
  | .commit => false
  | .wantsKeepaliveResponse => false

/-- The event changes the table. -/
def Touches (table : Relation) : WalEvent V → Prop
  | .row schema name _ => relationOf (schema, name) = table
  | .truncate tables => ∃ truncated ∈ tables, relationOf truncated = table
  | .ddlEvent _ _ => False
  | .commit => False
  | .wantsKeepaliveResponse => False

/-- What the event has the table perform. -/
def operationsOn (table : Relation) : WalEvent V → List (TableOperation V)
  | .row schema name event => if relationOf (schema, name) = table then event.operations else []
  | .truncate tables =>
    if ∃ truncated ∈ tables, relationOf truncated = table then [.truncate] else []
  | .ddlEvent _ _ => []
  | .commit => []
  | .wantsKeepaliveResponse => []

def RowsOfOneTable : WalEvent V → WalEvent V → Prop
  | .row schema name _, .row schema' name' _ => schema = schema' ∧ name = name'
  | _, _ => False

/-- Each table is truncated once. -/
def WellFormed : WalEvent V → Prop
  | .truncate tables => tables.Nodup
  | _ => True

theorem isData_of_touches {table : Relation} (touches : event.Touches table) :
    event.isData = true := by
  cases event with
  | row schema name event => rfl
  | truncate tables => rfl
  | ddlEvent schema requiresResnapshot | commit | wantsKeepaliveResponse => exact touches.elim

end WalEvent

/-- What a stream has the table perform. -/
def allOperations (table : Relation) (queue : Wal V) : List (TableOperation V) :=
  queue.flatMap fun pair => pair.1.operationsOn table

variable (table : Relation)

@[simp] theorem allOperations_nil : allOperations table ([] : Wal V) = [] := rfl

@[simp] theorem allOperations_cons (event : WalEvent V) (lsn : Nat) (rest : Wal V) :
    allOperations table ((event, lsn) :: rest) =
      event.operationsOn table ++ allOperations table rest := rfl

/-- The order of LSNs: data events have increasing ones, equal only for rows of
one table, and a commit or keepalive request comes with a later one. -/
def Precedes (first second : WalEvent V × Nat) : Prop :=
  first.1.isData → if second.1.isData then
      first.2 < second.2 ∨ (first.2 = second.2 ∧ first.1.RowsOfOneTable second.1)
    else first.2 ≤ second.2

/-- The streams Postgres sends. -/
structure InOrder (queue : Wal V) : Prop where
  precedes : queue.Pairwise Precedes
  wellFormed : ∀ pair ∈ queue, pair.1.WellFormed

/-- No commit or keepalive request that follows rows of a table overtakes a
later event of that table. The table is the one of the last row, unless
something else came since. -/
def Unhurried : Option Relation → Wal V → Prop
  | _, [] => True
  | current, (event, lsn) :: rest =>
    match event with
    | .row schema name _ => Unhurried (some (relationOf (schema, name))) rest
    | .truncate _ => Unhurried none rest
    | .ddlEvent _ _ => Unhurried none rest
    | .commit =>
      (∀ table, current = some table → ∀ pair ∈ rest, pair.1.Touches table → lsn < pair.2) ∧
        Unhurried none rest
    | .wantsKeepaliveResponse =>
      (∀ table, current = some table → ∀ pair ∈ rest, pair.1.Touches table → lsn < pair.2) ∧
        Unhurried current rest

/-- The stored offset of a table is below an LSN. -/
def Fresh (adapter : NoriaAdapter V) (table : Relation) (lsn : Nat) : Prop :=
  ∀ offset, adapter.tableOffsets table = some (some offset) → offset.offset < lsn

/-- Every event that is to come is above the stored offset of its tables. -/
def Behind (adapter : NoriaAdapter V) (queue : Wal V) : Prop :=
  ∀ pair ∈ queue, ∀ table, pair.1.Touches table → Fresh adapter table pair.2

/-- What the tables performed. Each list of operations ends with the offset to
store. -/
def NoriaAdapter.applied (adapter : NoriaAdapter V) (table : Relation) :
    List (TableOperation V) :=
  adapter.performed.flatMap fun entry => if entry.1 = table then entry.2.dropLast else []

/-- The steps a stream can take at most: one for each event, and one for each
table of a truncation. -/
def weight : Wal V → Nat
  | [] => 0
  | (.truncate tables, _) :: rest => tables.length + 1 + weight rest
  | _ :: rest => 1 + weight rest

def EndsWithCommit (queue : Wal V) : Prop := ∃ lsn, queue.getLast? = some (.commit, lsn)

open Replicators (weight)

/-! ## Suffixes -/

variable {pair : WalEvent V × Nat} {rest : Wal V}

theorem InOrder.tail (ordered : InOrder (pair :: rest)) : InOrder rest :=
  ⟨(pairwise_cons.mp ordered.precedes).2, fun other mem =>
    ordered.wellFormed other (mem_cons_of_mem _ mem)⟩

variable {other : WalEvent V × Nat}

theorem InOrder.head (ordered : InOrder (pair :: rest)) (mem : other ∈ rest) :
    Precedes pair other :=
  (pairwise_cons.mp ordered.precedes).1 other mem

section

variable (ordered : InOrder (pair :: rest)) (data : pair.1.isData = true) (mem : other ∈ rest)

include ordered data mem

theorem InOrder.head_data (otherData : other.1.isData = true) :
    pair.2 < other.2 ∨ (pair.2 = other.2 ∧ pair.1.RowsOfOneTable other.1) := by
  have precedes := ordered.head mem data
  rwa [if_pos otherData] at precedes

theorem InOrder.head_le : pair.2 ≤ other.2 := by
  have precedes := ordered.head mem data
  split at precedes
  · exact precedes.elim le_of_lt fun both => both.1.le
  · exact precedes

end

variable {lsn : Nat} {adapter : NoriaAdapter V}

theorem InOrder.lt_of_not_row (ordered : InOrder ((event, lsn) :: rest))
    (data : event.isData = true) (notRow : ∀ other : WalEvent V, ¬ event.RowsOfOneTable other)
    (mem : pair ∈ rest) {table : Relation} (touches : pair.1.Touches table) : lsn < pair.2 :=
  (ordered.head_data data mem (isData_of_touches touches)).resolve_right fun both => notRow _ both.2

theorem Behind.tail (behind : Behind adapter (pair :: rest)) : Behind adapter rest :=
  fun other mem => behind other (mem_cons_of_mem _ mem)

theorem EndsWithCommit.tail (ends : EndsWithCommit (pair :: rest)) (some_ : rest ≠ []) :
    EndsWithCommit rest := by
  obtain ⟨lsn, last⟩ := ends
  exact ⟨lsn, by rwa [getLast?_cons_of_ne_nil some_] at last⟩

theorem EndsWithCommit.ne_nil (ends : EndsWithCommit ((event, lsn) :: rest))
    (notCommit : event ≠ .commit) : rest ≠ [] := by
  rintro rfl
  obtain ⟨lsn', last⟩ := ends
  exact notCommit (by simpa using congrArg (Option.map Prod.fst) last)

/-! ## Truncations in pieces -/

theorem relationOf_injective : Function.Injective relationOf := by
  rintro ⟨schema, name⟩ ⟨schema', name'⟩ same
  simpa [relationOf] using same

section

variable {tables fewer : List (String × String)}

theorem mem_peekTruncate (mem : pair ∈ peekTruncate fewer lsn rest) :
    pair = (.truncate fewer, lsn) ∨ pair ∈ rest := by
  unfold peekTruncate at mem
  split at mem
  · exact .inr mem
  · exact mem_cons.mp mem

theorem InOrder.peekTruncate (ordered : InOrder ((.truncate tables, lsn) :: rest))
    (sublist : fewer.Sublist tables) : InOrder (peekTruncate fewer lsn rest) := by
  unfold Replicators.peekTruncate
  split
  · exact ordered.tail
  · constructor
    · exact pairwise_cons.mpr ⟨fun other mem => ordered.head mem, ordered.tail.precedes⟩
    · intro pair mem
      rcases mem_cons.mp mem with rfl | later
      · exact (ordered.wellFormed _ mem_cons_self : tables.Nodup).sublist sublist
      · exact ordered.tail.wellFormed pair later

theorem unhurried_peekTruncate (unhurried : Unhurried none rest) :
    Unhurried none (peekTruncate fewer lsn rest) := by
  unfold peekTruncate
  split <;> exact unhurried

theorem Behind.peekTruncate
    (behind : Behind adapter ((.truncate tables, lsn) :: rest)) (subset : fewer ⊆ tables) :
    Behind adapter (peekTruncate fewer lsn rest) := by
  intro pair mem table touches
  rcases mem_peekTruncate mem with rfl | later
  · obtain ⟨truncated, listed, same⟩ := touches
    exact behind _ mem_cons_self table ⟨truncated, subset listed, same⟩
  · exact behind.tail pair later table touches

theorem EndsWithCommit.peekTruncate (ends : EndsWithCommit ((.truncate tables, lsn) :: rest)) :
    EndsWithCommit (peekTruncate fewer lsn rest) := by
  have some_ : rest ≠ [] := ends.ne_nil (by simp)
  obtain ⟨last, found⟩ := ends.tail some_
  unfold Replicators.peekTruncate
  split
  · exact ⟨last, found⟩
  · exact ⟨last, by rwa [getLast?_cons_of_ne_nil some_]⟩

theorem weight_peekTruncate (shorter : fewer.length ≤ tables.length) :
    weight (peekTruncate fewer lsn rest) ≤ tables.length + 1 + weight rest := by
  unfold peekTruncate
  split
  · omega
  · simp only [weight]
    omega

theorem allOperations_peekTruncate :
    allOperations table (peekTruncate fewer lsn rest) =
      (if ∃ truncated ∈ fewer, relationOf truncated = table then [.truncate] else []) ++
        allOperations table rest := by
  unfold peekTruncate
  split
  · next empty =>
      rw [isEmpty_iff.mp empty]
      simp
  · rfl

end

/-! ## The loop of `next_action` -/

/-- A batch being collected: its table is the current one, its position lies
above the stored offset, and every later event of the table lies above the
position, apart from rows of the same LSN that come next. -/
structure Batch (adapter : NoriaAdapter V) (curTable : Relation) (curLsn : Nat)
    (current : Option Relation) (queue : Wal V) : Prop where
  named : curTable.schema.isSome
  isCurrent : current = some curTable
  row : ∃ rowLsn, Fresh adapter curTable rowLsn ∧ rowLsn ≤ curLsn ∧
    ∀ pair ∈ queue, rowLsn ≤ pair.2
  next : ∃ same later, queue = same ++ later ∧
    (∀ pair ∈ same, pair.2 = curLsn ∧ ∃ schema name event, pair.1 = .row schema name event ∧
      relationOf (schema, name) = curTable) ∧
    ∀ pair ∈ later, pair.1.Touches curTable → curLsn < pair.2

section

variable {curTable : Relation} {curLsn : Nat}
  {cur : Option Relation} {queue : Wal V}

theorem Batch.fresh (batch : Batch adapter curTable curLsn cur queue) :
    Fresh adapter curTable curLsn := by
  obtain ⟨rowLsn, fresh, below, -⟩ := batch.row
  exact fun offset stored => lt_of_lt_of_le (fresh offset stored) below

section

variable (batch : Batch adapter curTable curLsn cur ((event, lsn) :: rest))

include batch

/-- Unless a row of the table and the LSN comes next, the position lies below
everything that is to come for the table. -/
theorem Batch.lt
    (other : ¬ (lsn = curLsn ∧ ∃ schema name row, event = .row schema name row ∧ relationOf (schema,
      name) = curTable)) :
    ∀ pair ∈ (event, lsn) :: rest, pair.1.Touches curTable → curLsn < pair.2 := by
  obtain ⟨same, later, whole, rows, above⟩ := batch.next
  cases same with
  | nil =>
    rw [whole]
    exact above
  | cons first same =>
    obtain ⟨rfl, -⟩ : (event, lsn) = first ∧ rest = same ++ later := by simpa using whole
    exact absurd (rows _ mem_cons_self) other

theorem Batch.fresh_head : Fresh adapter curTable lsn := by
  obtain ⟨rowLsn, fresh, -, below⟩ := batch.row
  exact fun offset stored => lt_of_lt_of_le (fresh offset stored) (below _ mem_cons_self)

end

theorem exists_same {schema name : String} {event : RowEvent V}
    (ordered : InOrder ((.row schema name event, lsn) :: queue))
    (unhurried : Unhurried (some (relationOf (schema, name))) queue) :
    ∃ same later, queue = same ++ later ∧
      (∀ pair ∈ same, pair.2 = lsn ∧ ∃ schema' name' event', pair.1 = .row schema' name' event' ∧
        relationOf (schema', name') = relationOf (schema, name)) ∧
      ∀ pair ∈ later, pair.1.Touches (relationOf (schema, name)) → lsn < pair.2 := by
  induction queue generalizing event with
  | nil => exact ⟨[], [], rfl, by simp, by simp⟩
  | cons pair rest ih =>
    obtain ⟨next, nextLsn⟩ := pair
    -- everything after an event above the row lies above it too
    have above : next.isData = true → lsn < nextLsn →
        ∀ pair ∈ (next, nextLsn) :: rest,
          pair.1.Touches (relationOf (schema, name)) → lsn < pair.2 := by
      intro data below pair mem touches
      rcases mem_cons.mp mem with rfl | later
      · exact below
      · exact below.trans_le (ordered.tail.head_le data later)
    have below : lsn ≤ nextLsn := ordered.head_le rfl mem_cons_self
    cases next with
    | row schema' name' event' =>
      rcases ordered.head_data rfl mem_cons_self rfl with less | ⟨equal, rfl, rfl⟩
      · exact ⟨[], _, rfl, by simp, above rfl less⟩
      · obtain rfl : lsn = nextLsn := equal
        obtain ⟨same, later, rfl, rows, above⟩ := ih ordered.tail unhurried
        refine ⟨_ :: same, later, rfl, ?_, above⟩
        intro pair mem
        rcases mem_cons.mp mem with rfl | inSame
        · exact ⟨rfl, schema, name, event', rfl, rfl⟩
        · exact rows pair inSame
    | truncate tables | ddlEvent schema' requiresResnapshot =>
      have less := (ordered.head_data rfl mem_cons_self rfl).resolve_right fun both => both.2
      exact ⟨[], _, rfl, by simp, above rfl less⟩
    | commit | wantsKeepaliveResponse =>
      refine ⟨[], _, rfl, by simp, fun pair mem touches => ?_⟩
      rcases mem_cons.mp mem with rfl | later
      · exact touches.elim
      · exact lt_of_le_of_lt below (unhurried.1 _ rfl pair later touches)

theorem Batch.keepalive
    (batch : Batch adapter curTable curLsn cur ((.wantsKeepaliveResponse, lsn) :: rest))
    (unhurried : Unhurried cur ((.wantsKeepaliveResponse, lsn) :: rest)) :
    Batch adapter curTable lsn cur rest where
  named := batch.named
  isCurrent := batch.isCurrent
  row := by
    obtain ⟨rowLsn, fresh, -, below⟩ := batch.row
    exact ⟨rowLsn, fresh, below _ mem_cons_self, fun pair mem =>
      below pair (mem_cons_of_mem _ mem)⟩
  next := ⟨[], rest, rfl, by simp, unhurried.1 curTable batch.isCurrent⟩

end

/-- The operations of one table among those of a batch. -/
def batchOn (table : Relation) (batch : Relation × List (TableOperation V)) :
    List (TableOperation V) :=
  if batch.1 = table then batch.2 else []

@[simp] theorem batchOn_nil (other : Relation) :
    batchOn table (other, ([] : List (TableOperation V))) = [] := by
  unfold batchOn
  split <;> rfl

/-- The batch of an action; a DDL change has none. -/
def ReplicationAction.batch : ReplicationAction V → Relation × List (TableOperation V)
  | .tableAction table actions => (table, actions)
  | .ddlChange _ _ => (⟨none, ""⟩, [])

/-- An action that was returned: with the queue it leaves it makes up what came
in, the queue is as good as before, and a table action lies above the stored
offset of its table and below every later event of it. -/
structure Returns (adapter : NoriaAdapter V) (collected : Relation × List (TableOperation V))
    (queue : Wal V) (action : ReplicationAction V) (pos : ReplicationOffset) (left : Wal V) :
    Prop where
  operations : ∀ table, batchOn table action.batch ++ allOperations table left =
    batchOn table collected ++ allOperations table queue
  inOrder : InOrder left
  unhurried : ∃ current, Unhurried current left
  behind : Behind adapter left
  table : ∀ table actions, action = .tableAction table actions →
    table.schema.isSome ∧ Fresh adapter table pos.offset ∧
      ∀ pair ∈ left, pair.1.Touches table → pos.offset < pair.2
  logName : pos.replicationLogName = ""
  weight : weight left ≤ weight queue
  progress : collected.2 = [] → Replicators.weight left < Replicators.weight queue
  ends : EndsWithCommit queue → left = [] ∨ EndsWithCommit left

/-- How a call of `next_action` may end. -/
def Specified (adapter : NoriaAdapter V) (collected : Relation × List (TableOperation V))
    (queue : Wal V) : NextAction V → Prop
  | .returned action pos left => Returns adapter collected queue action pos left
  | .waiting table actions =>
    (∀ other, batchOn other (table, actions) =
      batchOn other collected ++ allOperations other queue) ∧
    (EndsWithCommit queue → actions = [])
  | .failed _ => False

section

variable {curTable : Relation} {curLsn : Nat}
  {cur : Option Relation} {actions : List (TableOperation V)}

theorem weight_cons (event : WalEvent V) (lsn : Nat) (rest : Wal V) :
    weight rest < weight ((event, lsn) :: rest) := by
  cases event <;> simp only [weight] <;> omega

variable {posLsn : Nat}

theorem returns_batch
    (batch : Batch adapter curTable curLsn cur ((event, lsn) :: rest)) (some_ : actions ≠ [])
    (ordered : InOrder ((event, lsn) :: rest)) (unhurried : Unhurried cur ((event, lsn) :: rest))
    (behind : Behind adapter ((event, lsn) :: rest)) (fresh : Fresh adapter curTable posLsn)
    (below : ∀ pair ∈ (event, lsn) :: rest, pair.1.Touches curTable → posLsn < pair.2) :
    Returns adapter (curTable, actions) ((event, lsn) :: rest) (.tableAction curTable actions)
      (position posLsn) ((event, lsn) :: rest) where
  operations := fun _ => rfl
  inOrder := ordered
  unhurried := ⟨cur, unhurried⟩
  behind := behind
  table := by
    rintro table actions ⟨⟩
    exact ⟨batch.named, fresh, below⟩
  logName := rfl
  weight := le_rfl
  progress := fun none_ => absurd none_ some_
  ends := .inr

theorem Specified.cons {result : NextAction V}
    {collected collected' : Relation × List (TableOperation V)}
    (specified : Specified adapter collected' rest result) (operations : ∀ table,
      batchOn table collected' = batchOn table collected ++ event.operationsOn table)
    (ends : rest = [] → event = .commit → collected'.2 = []) :
    Specified adapter collected ((event, lsn) :: rest) result := by
  have wholeOperations : ∀ table, batchOn table collected' ++ allOperations table rest =
      batchOn table collected ++ allOperations table ((event, lsn) :: rest) := by
    intro table
    rw [operations, allOperations_cons, append_assoc]
  cases result with
  | failed problem => exact specified
  | waiting table actions =>
    obtain ⟨made, flushed⟩ := specified
    refine ⟨fun other => (made other).trans (wholeOperations other), fun endsHere => ?_⟩
    by_cases last : rest = []
    · subst last
      have commits : event = .commit := by
        by_contra notCommit
        exact endsHere.ne_nil notCommit rfl
      have same := made table
      have nothing : batchOn table collected' = [] := by
        unfold batchOn
        split
        · exact ends rfl commits
        · rfl
      rw [nothing] at same
      simpa [batchOn] using same
    · exact flushed (endsHere.tail last)
  | returned action pos left =>
    refine { specified with
      operations := fun table => (specified.operations table).trans (wholeOperations table)
      weight := le_trans specified.weight (weight_cons event lsn rest).le
      progress := fun _ => lt_of_le_of_lt specified.weight (weight_cons event lsn rest)
      ends := fun endsHere => ?_ }
    by_cases last : rest = []
    · subst last
      left
      have nothing : weight left ≤ 0 := specified.weight
      cases left with
      | nil => rfl
      | cons pair left =>
        obtain ⟨first, firstLsn⟩ := pair
        have heavier := weight_cons first firstLsn left
        omega
    · exact specified.ends (endsHere.tail last)

theorem RowEvent.operations_ne_nil (event : RowEvent V) : event.operations ≠ [] := by
  cases event <;> simp [RowEvent.operations]

theorem not_relationOf (table : String × String) : relationOf table ≠ ⟨none, ""⟩ := by
  simp [relationOf]

section

variable {tables : List (String × String)} {table : String × String}
  (ordered : InOrder ((.truncate (tables ++ [table]), lsn) :: rest))

include ordered

/-- A table is truncated once. -/
theorem InOrder.not_truncated :
    ¬ ∃ truncated ∈ tables, relationOf truncated = relationOf table := by
  have nodup : (tables ++ [table]).Nodup := ordered.wellFormed _ mem_cons_self
  rintro ⟨truncated, mem, same⟩
  obtain rfl := relationOf_injective same
  exact (nodup_append.mp nodup).2.2 truncated mem truncated (by simp) rfl

/-- A truncation without a batch: the last table is taken. -/
theorem returns_truncate (unhurried : Unhurried none rest)
    (behind : Behind adapter ((.truncate (tables ++ [table]), lsn) :: rest)) :
    Returns adapter (curTable, []) ((.truncate (tables ++ [table]), lsn) :: rest)
      (.tableAction (relationOf table) [.truncate]) (position lsn)
      (peekTruncate tables lsn rest) where
  operations := by
    intro other
    rw [allOperations_peekTruncate, allOperations_cons]
    by_cases here : relationOf table = other
    · subst here
      have absent := ordered.not_truncated
      simp [batchOn, ReplicationAction.batch, operationsOn, absent]
    · have listed : (∃ truncated ∈ tables ++ [table], relationOf truncated = other) ↔
          ∃ truncated ∈ tables, relationOf truncated = other := by
        constructor
        · rintro ⟨truncated, mem, same⟩
          rcases mem_append.mp mem with earlier | last
          · exact ⟨truncated, earlier, same⟩
          · obtain rfl := mem_singleton.mp last
            exact absurd same here
        · rintro ⟨truncated, mem, same⟩
          exact ⟨truncated, mem_append_left _ mem, same⟩
      simp only [batchOn, ReplicationAction.batch, operationsOn, here, if_false, listed, ite_self]
  inOrder := ordered.peekTruncate (sublist_append_left _ _)
  unhurried := ⟨none, unhurried_peekTruncate unhurried⟩
  behind := behind.peekTruncate (subset_append_left _ _)
  table := by
    rintro other actions ⟨⟩
    refine ⟨rfl, behind _ mem_cons_self _ ⟨table, by simp, rfl⟩, ?_⟩
    intro pair mem touches
    rcases mem_peekTruncate mem with rfl | later
    · exact absurd touches ordered.not_truncated
    · exact ordered.lt_of_not_row rfl (fun _ => id) later touches
  logName := rfl
  weight := by
    have lighter : weight (peekTruncate tables lsn rest) ≤
        tables.length + 1 + weight rest := weight_peekTruncate le_rfl
    simp only [weight, length_append]
    omega
  progress := by
    have lighter : weight (peekTruncate tables lsn rest) ≤
        tables.length + 1 + weight rest := weight_peekTruncate le_rfl
    simp only [weight, length_append, length_singleton]
    omega
  ends := fun ends => .inr ends.peekTruncate

end

theorem returns_truncated_batch {tables : List (String × String)}
    (batch : Batch adapter curTable curLsn cur ((.truncate tables, lsn) :: rest))
    (some_ : actions ≠ []) (ordered : InOrder ((.truncate tables, lsn) :: rest))
    (unhurried : Unhurried none rest) (behind : Behind adapter ((.truncate tables, lsn) :: rest)) :
    Returns adapter (curTable, actions) ((.truncate tables, lsn) :: rest) (.tableAction curTable
        (if (tables.filter fun table => relationOf table = curTable).isEmpty then actions
          else actions ++ [.truncate]))
      (position curLsn)
      (peekTruncate (tables.filter fun table => relationOf table ≠ curTable) lsn rest) where
  operations := by
    intro other
    rw [allOperations_peekTruncate, allOperations_cons, ← append_assoc, ← append_assoc]
    by_cases here : curTable = other
    · subst here
      have absent : ¬ ∃ truncated ∈ tables.filter fun table => relationOf table ≠ curTable,
          relationOf truncated = curTable := by
        rintro ⟨truncated, mem, same⟩
        exact of_decide_eq_true (mem_filter.mp mem).2 same
      rw [if_neg absent]
      by_cases matching : ∃ truncated ∈ tables, relationOf truncated = curTable
      · have listed : ¬ (tables.filter fun table => relationOf table = curTable).isEmpty := by
          obtain ⟨truncated, mem, same⟩ := matching
          exact fun empty => not_mem_nil (isEmpty_iff.mp empty ▸
            mem_filter.mpr ⟨mem, decide_eq_true same⟩)
        simp [batchOn, ReplicationAction.batch, operationsOn, matching, listed]
      · have nothing : (tables.filter fun table => relationOf table = curTable).isEmpty := by
          rw [List.isEmpty_iff, filter_eq_nil_iff]
          exact fun truncated mem same =>
            matching ⟨truncated, mem, of_decide_eq_true same⟩
        simp [ReplicationAction.batch, operationsOn, matching, nothing]
    · have rest : (∃ truncated ∈ tables.filter fun table => relationOf table ≠ curTable,
          relationOf truncated = other) ↔ ∃ truncated ∈ tables, relationOf truncated = other := by
        constructor
        · rintro ⟨truncated, mem, same⟩
          exact ⟨truncated, (mem_filter.mp mem).1, same⟩
        · rintro ⟨truncated, mem, same⟩
          refine ⟨truncated, mem_filter.mpr ⟨mem, decide_eq_true ?_⟩, same⟩
          rw [same]
          exact Ne.symm here
      simp only [batchOn, ReplicationAction.batch, operationsOn, here, if_false, rest]
  inOrder := ordered.peekTruncate filter_sublist
  unhurried := ⟨none, unhurried_peekTruncate unhurried⟩
  behind := behind.peekTruncate filter_sublist.subset
  table := by
    rintro other actions ⟨⟩
    refine ⟨batch.named, batch.fresh, fun pair mem touches => ?_⟩
    rcases mem_peekTruncate mem with rfl | later
    · obtain ⟨truncated, listed, same⟩ := touches
      exact absurd same (of_decide_eq_true (mem_filter.mp listed).2)
    · exact batch.lt (by simp) pair (mem_cons_of_mem _ later) touches
  logName := rfl
  weight := weight_peekTruncate (length_filter_le _ _)
  progress := fun none_ => absurd none_ some_
  ends := fun ends => .inr ends.peekTruncate

theorem Returns.of_head {action : ReplicationAction V}
    (operations : ∀ table, batchOn table action.batch = batchOn table (curTable,
      actions) ++ event.operationsOn table)
    (ordered : InOrder ((event, lsn) :: rest)) (unhurried : Unhurried none rest)
    (behind : Behind adapter ((event, lsn) :: rest))
    (table : ∀ table actions, action = .tableAction table actions →
      table.schema.isSome ∧ Fresh adapter table posLsn ∧ ∀ pair ∈ rest, pair.1.Touches table →
      posLsn < pair.2) :
    Returns adapter (curTable, actions) ((event, lsn) :: rest) action (position posLsn) rest where
  operations := by
    intro table
    rw [operations, allOperations_cons, append_assoc]
  inOrder := ordered.tail
  unhurried := ⟨none, unhurried⟩
  behind := behind.tail
  table := table
  logName := rfl
  weight := (weight_cons event lsn rest).le
  progress := fun _ => weight_cons event lsn rest
  ends := by
    intro ends
    by_cases last : rest = []
    · exact .inl last
    · exact .inr (ends.tail last)

/-- The loop of `next_action`. The induction is on the queue; a batch that is
being collected carries `Batch`. -/
theorem nextLoop_specified {queue : Wal V} (ordered : InOrder queue)
    (unhurried : Unhurried cur queue) (behind : Behind adapter queue)
    (idle : actions = [] → curTable = ⟨none, ""⟩)
    (busy : actions ≠ [] → Batch adapter curTable curLsn cur queue) :
    Specified adapter (curTable, actions) queue (nextLoop curTable curLsn actions queue) := by
  induction queue generalizing curTable curLsn actions cur with
  | nil =>
    refine ⟨fun other => by simp, fun ends => ?_⟩
    obtain ⟨lsn, last⟩ := ends
    simp at last
  | cons pair rest ih =>
    obtain ⟨event, lsn⟩ := pair
    by_cases full : maxQueuedIndependentActions ≤ actions.length ∧ lsn ≠ curLsn
    · have some_ : actions ≠ [] := by
        rintro rfl
        exact absurd full.1 (Nat.not_succ_le_zero 99)
      have batch := busy some_
      simp only [nextLoop, if_pos full]
      exact returns_batch batch some_ ordered unhurried behind batch.fresh
        (batch.lt fun both => full.2 both.1)
    · have collecting (nothing : actions ≠ []) : actions.isEmpty = false := by simpa using nothing
      simp only [nextLoop, if_neg full]
      cases event with
      | truncate tables =>
        by_cases nothing : actions = []
        · subst nothing
          obtain rfl := idle rfl
          have noMatch : tables.filter (fun table => relationOf table = ⟨none, ""⟩) = [] := by
            rw [filter_eq_nil_iff]
            exact fun table _ same => not_relationOf table (of_decide_eq_true same)
          have allOther : tables.filter (fun table => relationOf table ≠ ⟨none, ""⟩) =
              tables := by
            rw [filter_eq_self]
            exact fun table _ => decide_eq_true (not_relationOf table)
          simp only [noMatch, allOther]
          rcases eq_nil_or_concat tables with rfl | ⟨front, last, rfl⟩
          · exact (ih ordered.tail unhurried behind.tail (fun _ => rfl)
              (fun some_ => absurd rfl some_)).cons (fun table => by
                simp [operationsOn]) (fun _ _ => rfl)
          · rw [concat_eq_append] at ordered behind ⊢
            simp only [getLast?_concat, dropLast_concat]
            exact returns_truncate ordered unhurried behind
        · simp only [collecting nothing]
          exact returns_truncated_batch (busy nothing) nothing ordered unhurried behind
      | row schema name event =>
        have started : Batch adapter (relationOf (schema, name)) lsn
            (some (relationOf (schema, name))) rest :=
          { named := rfl
            isCurrent := rfl
            row := ⟨lsn, behind _ mem_cons_self _ rfl, le_rfl, fun _ mem =>
              ordered.head_le rfl mem⟩
            next := exists_same ordered unhurried }
        by_cases here : relationOf (schema, name) = curTable
        · subst here
          simp only [ne_eq]
          refine (ih ordered.tail unhurried behind.tail ?_ fun _ =>
            started).cons (fun table => ?_) (fun _ same => nomatch same)
          · intro none_
            exact absurd (append_eq_nil_iff.mp none_).2 event.operations_ne_nil
          · unfold batchOn
            simp only [operationsOn]
            split <;> rfl
        · simp only [ne_eq, here]
          by_cases nothing : actions = []
          · subst nothing
            refine (ih ordered.tail unhurried behind.tail ?_ fun _ =>
              started).cons (fun table => ?_) (fun _ same => nomatch same)
            · exact fun none_ => absurd none_ event.operations_ne_nil
            · unfold batchOn
              simp [operationsOn]
          · have batch := busy nothing
            simp only [collecting nothing]
            refine returns_batch batch nothing ordered unhurried behind batch.fresh (batch.lt ?_)
            rintro ⟨-, schema', name', event', same, isCurrent⟩
            obtain ⟨rfl, rfl, rfl⟩ := row.inj same
            exact here isCurrent
      | ddlEvent schema requiresResnapshot =>
        by_cases nothing : actions = []
        · subst nothing
          refine Returns.of_head (fun table => ?_) ordered unhurried behind
            (fun _ _ same => nomatch same)
          simp [ReplicationAction.batch, operationsOn]
        · have batch := busy nothing
          simp only [collecting nothing]
          refine returns_batch batch nothing ordered unhurried behind batch.fresh_head ?_
          intro pair mem touches
          rcases mem_cons.mp mem with rfl | later
          · exact touches.elim
          · exact ordered.lt_of_not_row rfl (fun _ => id) later touches
      | commit =>
        by_cases nothing : actions = []
        · subst nothing
          exact (ih ordered.tail unhurried.2 behind.tail idle
            (fun some_ => absurd rfl some_)).cons (fun table => by
              simp [operationsOn]) (fun _ _ => rfl)
        · have batch := busy nothing
          simp only [collecting nothing]
          refine Returns.of_head (fun table => ?_) ordered unhurried.2 behind ?_
          · simp [ReplicationAction.batch, operationsOn]
          · rintro table actions ⟨⟩
            exact ⟨batch.named, batch.fresh_head, unhurried.1 curTable batch.isCurrent⟩
      | wantsKeepaliveResponse =>
        exact (ih ordered.tail unhurried.2 behind.tail idle fun some_ =>
          (busy some_).keepalive unhurried).cons (fun table => by
            simp [operationsOn]) (fun _ same => nomatch same)

end

/-! ## The adapter -/

section

variable {shouldBeProcessed : String → String → Bool} {hasTable : Relation → Bool}
 {queue left : Wal V} {action : ReplicationAction V}
  {pos : ReplicationOffset}

/-- An action that was returned is applied, and leaves the adapter behind what
is to come; only a resnapshot ends replication. -/
theorem handleAction_applies (processed : ∀ schema name, shouldBeProcessed schema name = true)
    (found : ∀ table, hasTable table = true)
    (returns : Returns adapter (⟨none, ""⟩, []) queue action pos left) :
    adapter.handleAction shouldBeProcessed hasTable action pos = .error .resnapshotNeeded ∧
        (∀ table, batchOn table action.batch = []) ∨
      ∃ next, adapter.handleAction shouldBeProcessed hasTable action pos = .ok next ∧
        Behind next left ∧
        ∀ table, next.applied table = adapter.applied table ++ batchOn table action.batch := by
  cases action with
  | ddlChange schema requiresResnapshot =>
    have nothing : ∀ table, batchOn table (ReplicationAction.ddlChange schema
        requiresResnapshot : ReplicationAction V).batch = [] := fun table => batchOn_nil _ _
    by_cases skipped : adapter.schemaOffset.any (atOrBelow pos)
    · exact .inr ⟨adapter, if_pos skipped, returns.behind, fun table => by simp [nothing]⟩
    · cases requiresResnapshot with
      | true => exact .inl ⟨if_neg skipped, nothing⟩
      | false =>
        refine .inr ⟨_, if_neg skipped, returns.behind, fun table => ?_⟩
        rw [nothing, append_nil]
        rfl
  | tableAction table actions =>
    obtain ⟨named, fresh, below⟩ := returns.table table actions rfl
    obtain ⟨schema, isSchema⟩ := Option.isSome_iff_exists.mp named
    have kept : ¬ (adapter.tableOffsets table).any fun offset => offset.any (atOrBelow pos) := by
      intro skipped
      rcases stored : adapter.tableOffsets table with _ | _ | offset
      · simp [stored] at skipped
      · simp [stored] at skipped
      · have above := fresh offset stored
        simp only [stored, Option.any_some, atOrBelow, Bool.and_eq_true, decide_eq_true_eq]
          at skipped
        omega
    right
    refine ⟨adapter.handleTableActions hasTable table actions pos, ?_, ?_, ?_⟩
    · simp [NoriaAdapter.handleAction, if_neg kept, isSchema, processed]
    · intro pair mem other touches offset stored
      simp only [NoriaAdapter.handleTableActions, found, if_true] at stored
      by_cases here : other = table
      · subst here
        rw [Function.update_self] at stored
        obtain rfl := Option.some.inj (Option.some.inj stored)
        exact below pair mem touches
      · rw [Function.update_of_ne here] at stored
        exact returns.behind pair mem other touches offset stored
    · intro other
      simp only [NoriaAdapter.applied, NoriaAdapter.handleTableActions, found, if_true,
        flatMap_append, flatMap_cons, flatMap_nil, append_nil,
        dropLast_concat]
      rfl

end

/-! ## Every stream -/

/-- For every stream in order that no commit or keepalive request overtakes, and
every number of calls: what the tables performed, what is being collected and
what has not been read are together what the stream asks for, table by table
and in its order. Enough calls read the whole stream, unless it asks for a
resnapshot, and nothing is being collected at the end of a stream that ends
with a commit. -/
theorem mainLoop_applies (shouldBeProcessed : String → String → Bool) (hasTable : Relation → Bool)
    (processed : ∀ schema name, shouldBeProcessed schema name = true)
    (found : ∀ table, hasTable table = true) (adapter : NoriaAdapter V) (stream : Wal V)
    (ordered : InOrder stream) (unhurried : Unhurried none stream)
    (behind : Behind adapter stream) (calls : Nat) (progress : Progress V)
    (ran : mainLoop shouldBeProcessed hasTable calls adapter stream = progress) :
    (∀ table, progress.adapter.applied table ++ batchOn table progress.collecting ++
        allOperations table progress.unread =
      adapter.applied table ++ allOperations table stream) ∧
    (progress.result = .ok () ∨ progress.result = .error .resnapshotNeeded) ∧
    (weight stream < calls →
      progress.unread = [] ∨ progress.result = .error .resnapshotNeeded) ∧
    (stream = [] ∨ EndsWithCommit stream →
      progress.unread = [] → progress.collecting.2 = []) := by
  subst ran
  suffices general : ∀ current, Unhurried current stream → _ from general none unhurried
  clear unhurried
  intro current unhurried
  induction calls generalizing adapter stream current with
  | zero =>
    simp [mainLoop]
  | succ calls ih =>
    have specified : Specified adapter (⟨none, ""⟩, []) stream (nextAction stream) :=
      nextLoop_specified ordered unhurried behind (fun _ => rfl) (fun some_ => absurd rfl some_)
    cases next : nextAction stream with
    | failed problem =>
      rw [next] at specified
      exact specified.elim
    | waiting table actions =>
      rw [next] at specified
      obtain ⟨made, flushed⟩ := specified
      have ran : mainLoop shouldBeProcessed hasTable (calls + 1) adapter stream =
          ⟨adapter, (table, actions), [], .ok ()⟩ := by
        simp [mainLoop, next]
      rw [ran]
      refine ⟨fun other => ?_, .inl rfl, fun _ => .inl rfl, fun ends _ => ?_⟩
      · rw [made]
        simp
      · rcases ends with rfl | ends
        · obtain ⟨-, rfl⟩ : _ ∧ [] = actions := NextAction.waiting.inj next
          rfl
        · exact flushed ends
    | returned action pos left =>
      rw [next] at specified
      have returns : Returns adapter (⟨none, ""⟩, []) stream action pos left := specified
      have operations : ∀ table, batchOn table action.batch ++ allOperations table left =
          allOperations table stream := fun table => by
        simpa using returns.operations table
      rcases handleAction_applies processed found returns with
        ⟨ended, nothing⟩ | ⟨handled, applied, behindNext, appliedNext⟩
      · have ran : mainLoop shouldBeProcessed hasTable (calls + 1) adapter stream =
            ⟨adapter, (⟨none, ""⟩, []), left, .error .resnapshotNeeded⟩ := by
          simp [mainLoop, next, ended]
        rw [ran]
        refine ⟨fun table => ?_, .inr rfl, fun _ => .inr rfl, fun _ _ => rfl⟩
        rw [← operations table, nothing]
        simp
      · obtain ⟨current, unhurriedNext⟩ := returns.unhurried
        obtain ⟨made, ending, finished, flushed⟩ := ih handled left
          returns.inOrder behindNext current unhurriedNext
        have ran : mainLoop shouldBeProcessed hasTable (calls + 1) adapter stream =
            mainLoop shouldBeProcessed hasTable calls handled left := by
          simp [mainLoop, next, applied]
        rw [ran]
        refine ⟨fun table => ?_, ending, fun enough => finished ?_, fun ends => flushed ?_⟩
        · rw [made, appliedNext, List.append_assoc, operations]
        · have lighter := returns.progress rfl
          omega
        · rcases ends with rfl | ends
          · exact absurd (returns.progress rfl) (Nat.not_lt_zero _)
          · exact returns.ends ends

/-! ## A keepalive request between two tables -/

/-- Rows of two tables, with a keepalive request after the first. -/
def interleaved (keepaliveLsn : Nat) : Wal Nat :=
  [(.row "public" "t" (.insert [.value 1]), 10), (.wantsKeepaliveResponse, keepaliveLsn),
    (.row "public" "u" (.insert [.value 2]), 20), (.commit, 30),
    (.row "public" "t" (.insert [.value 3]), 40), (.commit, 50)]

/-- An adapter that has stored no offset. -/
def freshAdapter : NoriaAdapter Nat := ⟨none, fun _ => none, []⟩

theorem inOrder_interleaved {keepaliveLsn : Nat} (later : 10 ≤ keepaliveLsn) :
    InOrder (interleaved keepaliveLsn) := by
  constructor
  · simp [interleaved, Precedes, isData, later]
  · simp [interleaved, WalEvent.WellFormed]

/-- The request carries the end of the log, the first batch is reported there,
and the second row of the table is skipped. -/
theorem overtaken_row_skipped :
    InOrder (interleaved 100) ∧
      allOperations ⟨some "public", "t"⟩ (interleaved 100) =
        [.insert [.value 1], .insert [.value 3]] ∧
      (mainLoop (fun _ _ => true) (fun _ => true) 7 freshAdapter
        (interleaved 100)).adapter.applied ⟨some "public", "t"⟩ = [.insert [.value 1]] ∧
      (mainLoop (fun _ _ => true) (fun _ => true) 7 freshAdapter
        (interleaved 100)).unread = [] :=
  ⟨inOrder_interleaved (by decide), rfl, rfl, rfl⟩

theorem mainLoop_applies_interleaved :
    (mainLoop (fun _ _ => true) (fun _ => true) 7 freshAdapter
        (interleaved 11)).adapter.applied ⟨some "public", "t"⟩ =
      [.insert [.value 1], .insert [.value 3]] := by
  obtain ⟨made, -, -, flushed⟩ := mainLoop_applies (fun _ _ => true) (fun _ => true)
    (fun _ _ => rfl) (fun _ => rfl) freshAdapter (interleaved 11)
    (inOrder_interleaved (by decide)) (by simp [interleaved, Unhurried])
    (fun _ _ _ _ _ stored => nomatch stored) 7 _ rfl
  have collected := flushed (.inr ⟨50, rfl⟩) rfl
  have read : (mainLoop (fun _ _ => true) (fun _ => true) 7 freshAdapter
    (interleaved 11)).unread = [] := rfl
  have whole := (made ⟨some "public", "t"⟩).trans
    (show _ = [TableOperation.insert [.value 1], .insert [.value 3]] from rfl)
  simpa [batchOn, collected, read] using whole

end ReadySet.Replicators
