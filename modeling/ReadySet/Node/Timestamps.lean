import Mathlib.Logic.Relation
import ReadySet.Library.Machine

/-!
Owns the timestamps that follow the writes of base tables through the graph:
their lattice (`Timestamp`), and how a node turns the timestamps of its parents
into its own (`Node::process_timestamp`).

A timestamp should promise that all of its writes have come by: when a node
gives a table a value, its parents that see the table have given it that value
before (`Covered`). `Timestamp::min` ignores the parents that have no value for
a table, so this needs `Uniform` steps, where the parents that see a table have
a value for it as soon as one of them has. `covered_of_uniform` is about every
run with such steps, and reads the promise off along every path.

A map is the function that looks a key up, and base tables are named by their
nodes. Does not own egress nodes, which only pass timestamps on.
-/

namespace ReadySet.Node

open Library List Function

variable {N : Type}

/-! ## Timestamps -/

abbrev Timestamp (N : Type) := N → Option Nat

namespace Timestamp

def default : Timestamp N := fun _ => none

/-- One of the maps of `Timestamp::min`. -/
def lower (ret t : Timestamp N) : Timestamp N := fun table =>
  match t table with
  | none => ret table
  | some value =>
    match ret table with
    | some current => some (if current > value then value else current)
    | none => some value

def min (timestamps : List (Timestamp N)) : Timestamp N := timestamps.foldl lower default

def join (t1 t2 : Timestamp N) : Timestamp N := fun table =>
  match t1 table, t2 table with
  | none, v2 => v2
  | some v1, none => some v1
  | some v1, some v2 => some (if v1 > v2 then v1 else v2)

def Satisfies (self t2 : Timestamp N) : Prop :=
  ∀ table timestamp, t2 table = some timestamp →
    ∃ value, self table = some value ∧ ¬timestamp > value

end Timestamp

section

variable [DecidableEq N]

/-! ## Nodes -/

/-- `Node::process_timestamp`: the timestamps of the sources of a node, and the
timestamp it sends on, or stores when it is a reader. -/
def processTimestamp (parents : List N) (timestamps : N → Option (Timestamp N)) (srcNode : N)
    (timestamp : Timestamp N) : (N → Option (Timestamp N)) × Timestamp N :=
  let joined := match timestamps srcNode with
    | some e => Timestamp.join e timestamp
    | none => timestamp
  let timestamps := Function.update timestamps srcNode (some joined)
  (timestamps,
    if parents.isEmpty then joined
    else match parents.mapM timestamps with
      | none => Timestamp.default
      | some parentTimestamps => Timestamp.min parentTimestamps)

/-! ## Runs -/

/-- What the nodes have stored for their sources, and all they have emitted. -/
structure State (N : Type) where
  timestamps : N → N → Option (Timestamp N)
  emitted : N → List (Timestamp N)

/-- Nothing has been sent. -/
def State.initial : State N where
  timestamps _ _ := none
  emitted _ := []

inductive Event (N : Type) where
  /-- A client sends a timestamp to a base table. -/
  | write (base : N) (timestamp : Timestamp N)
  /-- A timestamp that `src` has emitted arrives at `dst`. -/
  | deliver (src dst : N) (timestamp : Timestamp N)

/-- The node that handles an event. -/
def Event.node : Event N → N
  | .write base _ => base
  | .deliver _ dst _ => dst

/-- Where the timestamp of an event comes from: those of clients come from the
base table itself. -/
def Event.src : Event N → N
  | .write base _ => base
  | .deliver src _ _ => src

def Event.timestamp : Event N → Timestamp N
  | .write _ timestamp => timestamp
  | .deliver _ _ timestamp => timestamp

/-- What the node of an event stores and emits. -/
def handle (parents : N → List N) (state : State N) (event : Event N) :
    (N → Option (Timestamp N)) × Timestamp N :=
  processTimestamp (parents event.node) (state.timestamps event.node) event.src event.timestamp

/-- One event, in a graph given by the parents of its nodes. -/
def step (parents : N → List N) (state : State N) (event : Event N) : State N where
  timestamps := Function.update state.timestamps event.node (handle parents state event).1
  emitted := Function.update state.emitted event.node
    (state.emitted event.node ++ [(handle parents state event).2])

/-- The state after a sequence of events. -/
def after (parents : N → List N) (events : List (Event N)) : State N :=
  events.foldl (step parents) State.initial

/-- Clients write to base tables, and what arrives over an edge was emitted. -/
def Possible (parents : N → List N) (state : State N) : Event N → Prop
  | .write base _ => parents base = []
  | .deliver src dst timestamp => src ∈ parents dst ∧ timestamp ∈ state.emitted src

end

/-! ## The promise of a timestamp -/

/-- A node is a table or a descendant of it. -/
def Sees (parents : N → List N) (table node : N) : Prop :=
  Relation.ReflTransGen (fun parent child => parent ∈ parents child) table node

/-- A node has emitted at least a value for a table. -/
def Reached (state : State N) (node table : N) (value : Nat) : Prop :=
  ∃ timestamp ∈ state.emitted node, ∃ reached, timestamp table = some reached ∧ value ≤ reached

/-- Whatever value a node has emitted for a table, its parents that see the
table have reached. -/
def Covered (parents : N → List N) (state : State N) : Prop :=
  ∀ node, ∀ timestamp ∈ state.emitted node, ∀ table value, timestamp table = some value →
    ∀ parent ∈ parents node, Sees parents table parent → Reached state parent table value

/-- A source of a node has a value for a table, counting the timestamp at
hand. -/
def Knows (state : State N) (event : Event N) (source table : N) : Prop :=
  (∃ timestamp, state.timestamps event.node source = some timestamp ∧ timestamp table ≠ none) ∨
    source = event.src ∧ event.timestamp table ≠ none

/-- A source of a node has a timestamp, counting the one at hand. -/
def Heard (state : State N) (event : Event N) (source : N) : Prop :=
  state.timestamps event.node source ≠ none ∨ source = event.src

/-- When all parents of the node have timestamps and one of them has a value for
a table, all the parents that see the table have one. -/
def Uniform (parents : N → List N) (state : State N) (event : Event N) : Prop :=
  (∀ parent ∈ parents event.node, Heard state event parent) →
    ∀ table, (∃ parent ∈ parents event.node, Knows state event parent table) →
      ∀ parent ∈ parents event.node, Sees parents table parent → Knows state event parent table

/-! ## Minimum and join -/

namespace Timestamp

variable {table : N} {value : Nat} {timestamps : List (Timestamp N)} {t1 t2 : Timestamp N}
  {ret t : Timestamp N}

theorem lower_eq_some (lowered : lower ret t table = some value) :
    (ret table = some value ∨ t table = some value) ∧
      (∀ cur, ret table = some cur → value ≤ cur) ∧
      ∀ new, t table = some new → value ≤ new := by
  rw [lower] at lowered
  rcases ofT : t table with _ | new
  · simp only [ofT] at lowered
    refine ⟨.inl lowered, fun cur known => ?_, fun _ absent => nomatch absent⟩
    exact (Option.some.inj (lowered.symm.trans known)).le
  · rcases ofRet : ret table with _ | cur
    · simp only [ofT, ofRet] at lowered
      refine ⟨.inr lowered, fun _ absent => (nomatch absent), fun other known => ?_⟩
      exact (Option.some.inj (lowered.symm.trans known)).le
    · simp only [ofT, ofRet, Option.some.injEq] at lowered
      subst lowered
      simp only [Option.some.injEq, forall_eq']
      by_cases less : cur > new
      · simp only [if_pos less, or_true, true_and]
        omega
      · simp only [if_neg less, true_or, true_and]
        omega

theorem lower_eq_none (absent : lower ret t table = none) : ret table = none ∧ t table = none := by
  rw [lower] at absent
  rcases ofT : t table with _ | new
  · simp only [ofT] at absent
    exact ⟨absent, rfl⟩
  · rcases ofRet : ret table with _ | cur <;> simp [ofT, ofRet] at absent

/-- The merged timestamp of a table is the least one given. -/
theorem foldl_lower_eq_some {start : Timestamp N}
    (lowered : timestamps.foldl lower start table = some value) :
    (start table = some value ∨ ∃ timestamp ∈ timestamps, timestamp table = some value) ∧
      (∀ cur, start table = some cur → value ≤ cur) ∧
      ∀ timestamp ∈ timestamps, ∀ new, timestamp table = some new → value ≤ new := by
  induction timestamps generalizing start with
  | nil =>
    refine ⟨.inl lowered, fun cur known => ?_, fun _ absent => nomatch absent⟩
    exact (Option.some.inj (lowered.symm.trans known)).le
  | cons timestamp timestamps ih =>
    obtain ⟨source, fromStart, fromRest⟩ := ih lowered
    rcases known : lower start timestamp table with _ | first
    · obtain ⟨noStart, noTimestamp⟩ := lower_eq_none known
      rw [known] at source
      have fromMembers := source.resolve_left nofun
      refine ⟨.inr ?_, fun cur found => ?_, forall_mem_cons.mpr ⟨fun new found => ?_, fromRest⟩⟩
      · obtain ⟨mem, present, found⟩ := fromMembers
        exact ⟨mem, mem_cons_of_mem _ present, found⟩
      · cases noStart.symm.trans found
      · cases noTimestamp.symm.trans found
    · obtain ⟨either, belowStart, belowTimestamp⟩ := lower_eq_some known
      have least : value ≤ first := fromStart first known
      refine ⟨?_, fun cur found => least.trans (belowStart cur found),
        forall_mem_cons.mpr ⟨fun new found => least.trans (belowTimestamp new found), fromRest⟩⟩
      rcases source with fromFirst | ⟨mem, present, found⟩
      · obtain rfl := Option.some.inj (known.symm.trans fromFirst)
        exact either.imp_right fun found => ⟨timestamp, mem_cons_self, found⟩
      · exact .inr ⟨mem, mem_cons_of_mem _ present, found⟩

theorem join_eq_some (joined : join t1 t2 table = some value) :
    t1 table = some value ∨ t2 table = some value := by
  rw [join] at joined
  rcases ofLeft : t1 table with _ | left
  · simp only [ofLeft] at joined
    exact .inr joined
  · rcases ofRight : t2 table with _ | right
    · simp only [ofLeft, ofRight] at joined
      exact .inl joined
    · simp only [ofLeft, ofRight] at joined
      split_ifs at joined
      · exact .inl joined
      · exact .inr joined

theorem join_ne_none (known : t1 table ≠ none ∨ t2 table ≠ none) : join t1 t2 table ≠ none := by
  rw [join]
  rcases ofLeft : t1 table with _ | left
  · exact known.resolve_left (absurd ofLeft)
  · rcases t2 table with _ | right <;> exact nofun

end Timestamp

/-! ## One step -/

section

variable [DecidableEq N] {parents : N → List N} {state : State N} {event : Event N} {source : N}

/-- The timestamps that the node of an event has for its sources after it. -/
def stored (state : State N) (event : Event N) : N → Option (Timestamp N) :=
  (handle (fun _ => []) state event).1

theorem stored_of_ne (other : source ≠ event.src) :
    stored state event source = state.timestamps event.node source :=
  update_of_ne other ..

theorem stored_source_none (unheard : state.timestamps event.node event.src = none) :
    stored state event event.src = some event.timestamp := by
  simp [stored, handle, processTimestamp, unheard]

theorem stored_source_some {old : Timestamp N}
    (heard : state.timestamps event.node event.src = some old) :
    stored state event event.src = some (Timestamp.join old event.timestamp) := by
  simp [stored, handle, processTimestamp, heard]

variable {table : N} {timestamp : Timestamp N}

theorem Knows.stored (knows : Knows state event source table)
    (found : stored state event source = some timestamp) : timestamp table ≠ none := by
  by_cases same : source = event.src
  · subst same
    rcases before : state.timestamps event.node event.src with _ | old
    · obtain rfl := Option.some.inj ((stored_source_none before).symm.trans found)
      rcases knows with ⟨_, heard, _⟩ | ⟨_, now⟩
      · cases before.symm.trans heard
      · exact now
    · obtain rfl := Option.some.inj ((stored_source_some before).symm.trans found)
      refine Timestamp.join_ne_none (knows.imp ?_ And.right)
      rintro ⟨known, heard, has⟩
      obtain rfl := Option.some.inj (before.symm.trans heard)
      exact has
  · rw [stored_of_ne same] at found
    rcases knows with ⟨known, heard, has⟩ | ⟨isSource, _⟩
    · obtain rfl := Option.some.inj (heard.symm.trans found)
      exact has
    · exact absurd isSource same

variable {value : Nat} {node : N}

section

variable (found : stored state event source = some timestamp)
  (valued : timestamp table = some value)

include found valued

theorem stored_eq_some :
    (∃ old, state.timestamps event.node source = some old ∧ old table = some value) ∨
      source = event.src ∧ event.timestamp table = some value := by
  by_cases same : source = event.src
  · subst same
    rcases before : state.timestamps event.node event.src with _ | old
    · obtain rfl := Option.some.inj ((stored_source_none before).symm.trans found)
      exact .inr ⟨rfl, valued⟩
    · obtain rfl := Option.some.inj ((stored_source_some before).symm.trans found)
      exact (Timestamp.join_eq_some valued).imp (fun ofOld => ⟨old, rfl, ofOld⟩) fun now => ⟨rfl, now⟩
  · rw [stored_of_ne same] at found
    exact .inl ⟨timestamp, found, valued⟩

theorem knows_of_stored : Knows state event source table := by
  refine (stored_eq_some found valued).imp ?_ fun ⟨isSource, now⟩ => ⟨isSource, ?_⟩
  · rintro ⟨old, heard, has⟩
    exact ⟨old, heard, has ▸ nofun⟩
  · exact now ▸ nofun

end

theorem heard_of_stored (found : stored state event source = some timestamp) :
    Heard state event source := by
  by_cases same : source = event.src
  · exact .inr same
  · rw [stored_of_ne same] at found
    exact .inl (found ▸ nofun)

/-- What a node with parents emits has a value for a table only when all parents
have timestamps, one of them with this value and none with a smaller one. -/
theorem handle_eq_some (inner : parents event.node ≠ [])
    (sent : (handle parents state event).2 table = some value) :
    (∀ parent ∈ parents event.node, ∃ timestamp, stored state event parent = some timestamp ∧
        ∀ new, timestamp table = some new → value ≤ new) ∧
      ∃ parent ∈ parents event.node, ∃ timestamp, stored state event parent = some timestamp ∧
        timestamp table = some value := by
  have looked : ∃ results, (parents event.node).mapM (stored state event) = some results ∧
      Timestamp.min results table = some value := by
    have notEmpty : (parents event.node).isEmpty = false := by
      rw [isEmpty_eq_false_iff]
      exact inner
    have unfolded : (handle parents state event).2 =
        match (parents event.node).mapM (stored state event) with
        | none => Timestamp.default
        | some parentTimestamps => Timestamp.min parentTimestamps := by
      simp [handle, processTimestamp, notEmpty, stored]
    rw [unfolded] at sent
    rcases mapped : (parents event.node).mapM (stored state event) with _ | results
    · rw [mapped] at sent
      cases sent
    · rw [mapped] at sent
      exact ⟨results, rfl, sent⟩
  obtain ⟨results, mapped, least⟩ := looked
  have each := mapM_some mapped
  obtain ⟨source, _, below⟩ := Timestamp.foldl_lower_eq_some least
  obtain ⟨timestamp, mem, valued⟩ := source.resolve_left nofun
  constructor
  · intro parent isParent
    obtain ⟨found, present, isStored⟩ := exists_right_of_forall₂ each isParent
    exact ⟨found, isStored, below found present⟩
  · obtain ⟨parent, isParent, isStored⟩ := exists_left_of_forall₂ each mem
    exact ⟨parent, isParent, timestamp, isStored, valued⟩

/-! ## Runs with uniform steps -/

/-- The values a node has stored for a parent, the parent has reached. -/
def Delivered (parents : N → List N) (state : State N) : Prop :=
  ∀ node, ∀ parent ∈ parents node, ∀ timestamp, state.timestamps node parent = some timestamp →
    ∀ table value, timestamp table = some value → Reached state parent table value

theorem emitted_step_self : (step parents state event).emitted event.node =
    state.emitted event.node ++ [(handle parents state event).2] :=
  update_self ..

theorem emitted_step_of_ne (other : node ≠ event.node) :
    (step parents state event).emitted node = state.emitted node :=
  update_of_ne other ..

theorem mem_emitted_step (emitted : timestamp ∈ state.emitted node) :
    timestamp ∈ (step parents state event).emitted node := by
  by_cases same : node = event.node
  · subst same
    rw [emitted_step_self]
    exact mem_append_left _ emitted
  · rw [emitted_step_of_ne same]
    exact emitted

theorem Reached.step (reached : Reached state node table value) :
    Reached (step parents state event) node table value := by
  obtain ⟨timestamp, emitted, least⟩ := reached
  exact ⟨timestamp, mem_emitted_step emitted, least⟩

omit [DecidableEq N] in
theorem Reached.le {more : Nat} (reached : Reached state node table more)
    (less : value ≤ more) : Reached state node table value := by
  obtain ⟨timestamp, emitted, found, valued, least⟩ := reached
  exact ⟨timestamp, emitted, found, valued, less.trans least⟩

section

variable (delivered : Delivered parents state) (possible : Possible parents state event)

include delivered possible

/-- What the node of an event has stored after it, its parents had reached
before. -/
theorem reached_of_stored {parent : N} (isParent : parent ∈ parents event.node)
    (found : stored state event parent = some timestamp) (valued : timestamp table = some value) :
    Reached state parent table value := by
  rcases stored_eq_some found valued with ⟨old, heard, has⟩ | ⟨isSource, now⟩
  · exact delivered event.node parent isParent old heard table value has
  · cases event with
    | write base sent =>
      have noParents : parents base = [] := possible
      exact absurd (noParents ▸ isParent : parent ∈ []) not_mem_nil
    | deliver src dst sent =>
      obtain rfl : parent = src := isSource
      exact ⟨sent, possible.2, value, now, le_rfl⟩

theorem Delivered.step : Delivered parents (step parents state event) := by
  intro node parent isParent timestamp found table value valued
  apply Reached.step
  by_cases same : node = event.node
  · subst same
    change Function.update state.timestamps event.node _ event.node parent = _ at found
    rw [update_self] at found
    exact reached_of_stored delivered possible isParent found valued
  · change Function.update state.timestamps event.node _ node parent = _ at found
    rw [update_of_ne same] at found
    exact delivered node parent isParent timestamp found table value valued

end

/-- A step with uniform timestamps keeps every node covered. -/
theorem Covered.step (covered : Covered parents state) (delivered : Delivered parents state)
    (possible : Possible parents state event) (uniform : Uniform parents state event) :
    Covered parents (step parents state event) := by
  intro node timestamp emitted table value valued parent isParent sees
  apply Reached.step
  by_cases same : node = event.node
  · subst same
    rw [emitted_step_self] at emitted
    rcases mem_append.mp emitted with before | now
    · exact covered _ timestamp before table value valued parent isParent sees
    -- The minimum has the value of one parent, so the others that see the table
    -- have a value, which is not below the minimum.
    · obtain rfl := mem_singleton.mp now
      obtain ⟨onParents, known, isKnown, _, found, has⟩ :=
        handle_eq_some (ne_nil_of_mem isParent) valued
      have knows : Knows state event parent table := by
        refine uniform (fun other isOther => ?_) table ⟨known, isKnown, knows_of_stored found has⟩
          parent isParent sees
        obtain ⟨_, isStored, _⟩ := onParents other isOther
        exact heard_of_stored isStored
      obtain ⟨ofParent, isStored, below⟩ := onParents parent isParent
      obtain ⟨more, valuedMore⟩ := Option.ne_none_iff_exists'.mp (knows.stored isStored)
      exact (reached_of_stored delivered possible isParent isStored valuedMore).le
        (below more valuedMore)
  · rw [emitted_step_of_ne same] at emitted
    exact covered node timestamp emitted table value valued parent isParent sees

theorem covered_after {events : List (Event N)}
    (every : EveryStep (fun earlier event => Possible parents (after parents earlier) event ∧
      Uniform parents (after parents earlier) event) events) :
    Delivered parents (after parents events) ∧ Covered parents (after parents events) := by
  induction events using reverseRecOn with
  | nil =>
    refine ⟨?_, ?_⟩
    · intro node parent isParent timestamp found
      cases found
    · intro node timestamp emitted
      exact absurd emitted not_mem_nil
  | append_singleton events event ih =>
    obtain ⟨before, possible, uniform⟩ := everyStep_concat.mp every
    obtain ⟨delivered, covered⟩ := ih before
    rw [after, foldl_concat]
    exact ⟨delivered.step possible, covered.step delivered possible uniform⟩

omit [DecidableEq N] in
theorem Covered.path (covered : Covered parents state) {between : N}
    (above : Sees parents table between) (below : Sees parents between node)
    (reached : Reached state node table value) : Reached state between table value := by
  induction below with
  | refl => exact reached
  | @tail parent child path edge ih =>
    obtain ⟨timestamp, emitted, found, valued, least⟩ := reached
    have atParent := covered child timestamp emitted table found valued parent edge
      (above.trans path)
    exact ih (atParent.le least)

/-- In a run with uniform steps, the values that a node emits for a table have
been emitted by its parents that see the table. So a node that satisfies a
ticket has seen its writes along every path. -/
theorem covered_of_uniform (parents : N → List N) (events : List (Event N))
    (every : EveryStep (fun earlier event => Possible parents (after parents earlier) event ∧
      Uniform parents (after parents earlier) event) events) :
    Covered parents (after parents events) ∧
      ∀ node, ∀ timestamp ∈ (after parents events).emitted node, ∀ ticket,
        Timestamp.Satisfies timestamp ticket → ∀ table value, ticket table = some value →
          ∀ between, Sees parents table between → Sees parents between node →
            Reached (after parents events) between table value := by
  have covered := (covered_after every).2
  refine ⟨covered, ?_⟩
  intro node timestamp emitted ticket satisfies table value wanted between above below
  obtain ⟨found, valued, notLess⟩ := satisfies table value wanted
  exact covered.path above below ⟨timestamp, emitted, found, valued, not_lt.mp notLess⟩

end

/-! ## Two paths to a node -/

/-- Writes of table 0 up to the fifth. -/
def fifth : Timestamp Nat := fun table => if table = 0 then some 5 else none

/-- Node 3 has two parents, and both have only table 0 above them. -/
def diamond : Nat → List Nat
  | 1 => [0]
  | 2 => [0]
  | 3 => [1, 2]
  | _ => []

/-- The fifth write goes down both sides of the diamond. -/
def bothSides : List (Event Nat) :=
  [] ++ [.write 0 fifth] ++ [.deliver 0 1 fifth] ++ [.deliver 0 2 fifth] ++
    [.deliver 1 3 (Timestamp.min [fifth])] ++ [.deliver 2 3 (Timestamp.min [fifth])]

theorem uniform_of_subsingleton {parents : N → List N} {state : State N} {event : Event N}
    (single : ∀ parent ∈ parents event.node, ∀ other ∈ parents event.node, parent = other) :
    Uniform parents state event := by
  rintro _ table ⟨parent, isParent, knows⟩ other isOther _
  exact single parent isParent other isOther ▸ knows

theorem bothSides_uniform :
    EveryStep (fun earlier event => Possible diamond (after diamond earlier) event ∧
      Uniform diamond (after diamond earlier) event) bothSides := by
  simp only [bothSides, everyStep_concat, everyStep_nil, true_and]
  refine ⟨⟨⟨⟨⟨rfl, ?_⟩, ⟨mem_singleton.mpr rfl, mem_singleton.mpr rfl⟩, ?_⟩,
    ⟨mem_singleton.mpr rfl, mem_singleton.mpr rfl⟩, ?_⟩,
    ⟨mem_cons_self, mem_singleton.mpr rfl⟩, ?_⟩,
    ⟨mem_cons_of_mem _ mem_cons_self, mem_singleton.mpr rfl⟩, ?_⟩
  · exact uniform_of_subsingleton fun _ isParent => absurd isParent not_mem_nil
  · exact uniform_of_subsingleton fun _ isParent _ isOther =>
      (mem_singleton.mp isParent).trans (mem_singleton.mp isOther).symm
  · exact uniform_of_subsingleton fun _ isParent _ isOther =>
      (mem_singleton.mp isParent).trans (mem_singleton.mp isOther).symm
  -- Node 3 has not heard of node 2 when the packet of node 1 arrives.
  · exact fun heard => absurd (heard _ (mem_cons_of_mem _ mem_cons_self))
      (not_or.mpr ⟨fun heard => heard rfl, by decide⟩)
  -- The two parents have the same timestamp.
  · rintro _ table ⟨known, isKnown, knows⟩ parent isParent _
    have has : Timestamp.min [fifth] table ≠ none := by
      rcases knows with ⟨timestamp, found, has⟩ | ⟨_, now⟩
      · rcases mem_cons.mp isKnown with rfl | isKnown
        · obtain rfl := Option.some.inj found
          exact has
        · obtain rfl := mem_singleton.mp isKnown
          cases found
      · exact now
    rcases mem_cons.mp isParent with rfl | isParent
    · exact .inl ⟨_, rfl, has⟩
    · exact .inr ⟨mem_singleton.mp isParent, has⟩

/-- Node 3 satisfies a ticket for the fifth write, and both sides have seen it. -/
theorem covered_bothSides :
    Covered diamond (after diamond bothSides) ∧
      Reached (after diamond bothSides) 1 0 5 ∧ Reached (after diamond bothSides) 2 0 5 := by
  obtain ⟨covered, onPaths⟩ := covered_of_uniform diamond bothSides bothSides_uniform
  have emitted : Timestamp.min [Timestamp.min [fifth], Timestamp.min [fifth]] ∈
      (after diamond bothSides).emitted 3 := List.mem_cons_of_mem _ List.mem_cons_self
  have satisfies : Timestamp.Satisfies
      (Timestamp.min [Timestamp.min [fifth], Timestamp.min [fifth]]) fifth := by
    intro table value wanted
    by_cases same : table = 0
    · subst same
      obtain rfl := Option.some.inj wanted
      exact ⟨5, rfl, lt_irrefl 5⟩
    · rw [fifth, if_neg same] at wanted
      exact nomatch wanted
  have edge : ∀ {parent child : Nat}, parent ∈ diamond child → Sees diamond parent child :=
    fun isParent => .single isParent
  refine ⟨covered, ?_, ?_⟩
  · exact onPaths 3 _ emitted fifth satisfies 0 5 rfl 1 (edge (by decide)) (edge (by decide))
  · exact onPaths 3 _ emitted fifth satisfies 0 5 rfl 2 (edge (by decide)) (edge (by decide))

/-- Node 4 has the parents 2 and 3, both below table 0, but node 2 also waits
for table 1. -/
def lopsided : Nat → List Nat
  | 2 => [0, 1]
  | 3 => [0]
  | 4 => [2, 3]
  | _ => []

/-- Node 2 sends its placeholder on, and then the fifth write comes over
node 3. -/
def placeholderFirst : List (Event Nat) :=
  [] ++ [.write 0 fifth] ++ [.deliver 0 2 fifth] ++ [.deliver 2 4 Timestamp.default] ++
    [.deliver 0 3 fifth] ++ [.deliver 3 4 (Timestamp.min [fifth])]

/-- Node 4 then claims to have seen the fifth write of table 0, which node 2 has
never sent on. -/
theorem placeholder_not_covered :
    EveryStep (fun earlier event => Possible lopsided (after lopsided earlier) event)
        placeholderFirst ∧
      ¬Covered lopsided (after lopsided placeholderFirst) := by
  constructor
  · simp only [placeholderFirst, everyStep_concat, everyStep_nil, true_and]
    exact ⟨⟨⟨⟨rfl, List.mem_cons_self, List.mem_singleton.mpr rfl⟩,
      List.mem_cons_self, List.mem_singleton.mpr rfl⟩,
      List.mem_cons_self, List.mem_singleton.mpr rfl⟩,
      List.mem_cons_of_mem _ List.mem_cons_self, List.mem_singleton.mpr rfl⟩
  · intro covered
    have emitted : Timestamp.min [Timestamp.default, Timestamp.min [fifth]] ∈
        (after lopsided placeholderFirst).emitted 4 := List.mem_cons_of_mem _ List.mem_cons_self
    have sees : Sees lopsided 0 2 := .single List.mem_cons_self
    obtain ⟨timestamp, sent, value, valued, _⟩ :=
      covered 4 _ emitted 0 5 rfl 2 List.mem_cons_self sees
    have isDefault : timestamp ∈ [Timestamp.default] := sent
    obtain rfl := List.mem_singleton.mp isDefault
    cases valued

end ReadySet.Node
