import ReadySet.Ops.Grouped.Updates

/-!
Owns a grouped operator at work between its parent and its own state: batch
after batch changes the parent, the operator's records are applied to its own
contents, and its lookups see the own contents before the batch and the parent
after it.

The states that answer the lookups are any states that hold those contents in
full (`Materializes`); they may depend on everything that has happened.
-/

namespace ReadySet.Ops.Grouped

open Data Library Dataflow

universe u

namespace GroupedOperator

variable {V Cache Diff : Type u} [LinearOrder V]

/-- The states that answer the operator's lookups: a function of the batches so
far, the own contents and the parent's. -/
abbrev Materialization (V : Type u) :=
  List (List (Record V)) → Multiset (Row V) → Multiset (Row V) → StateMap V

/-- The states hold the own contents and the parent's in full. -/
structure Materializes (op : GroupedOperator V Cache Diff) (states : StateMap V)
    (own parent : Multiset (Row V)) : Prop where
  own : ∃ state, states op.us = some state ∧ FullOn state op.outKey own
  parent : ∃ state, states op.src = some state ∧ FullOn state op.groupBy parent

/-- States that hold just the two contents. -/
def holdBoth (op : GroupedOperator V Cache Diff) : Materialization V :=
  fun _ own parent node =>
    if node = op.us then some (State.holding own)
    else if node = op.src then some (State.holding parent)
    else none

theorem holdBoth_materializes {op : GroupedOperator V Cache Diff} (nodup : op.src ≠ op.us)
    (batches : List (List (Record V))) (own parent : Multiset (Row V)) :
    op.Materializes (op.holdBoth batches own parent) own parent where
  own := ⟨_, if_pos rfl, State.holding_fullOn own _⟩
  parent := ⟨_, by rw [holdBoth, if_neg nodup, if_pos rfl], State.holding_fullOn parent _⟩

/-- The contents around an operator. -/
structure World (V Cache : Type u) where
  batches : List (List (Record V)) := []
  parent : Multiset (Row V) := 0
  own : Multiset (Row V) := 0
  cache : Cache

/-- One batch: the parent takes it, the operator handles it, and its records go
to the own contents. -/
def World.feed (op : GroupedOperator V Cache Diff) (arithmetic : Arithmetic V)
    (nodes : DomainNodes V) (materialize : Materialization V) (world : World V Cache)
    (batch : List (Record V)) : ReadySetResult (ProcessingResult V × World V Cache) :=
  match applyAll world.parent batch with
  | none => .error (.internal "the batch removes a row that the parent does not have")
  | some parent =>
    match op.onInput arithmetic world.cache batch .none nodes
        (materialize (world.batches ++ [batch]) world.own parent) with
    | .error error => .error error
    | .ok (result, cache) =>
      match applyAll world.own result.results with
      | none => .error (.internal "a row is revoked that the own state does not have")
      | some own =>
        .ok (result, { batches := world.batches ++ [batch], parent, own, cache })

/-- The parent's contents after a sequence of batches. -/
def tableAfter (batches : List (List (Record V))) : Multiset (Row V) :=
  (applyAll 0 batches.flatten).getD 0

variable {op : GroupedOperator V Cache Diff} {arith : Arithmetic V} {nodes : DomainNodes V}
  {materialize : Materialization V} {aggregate : Multiset (Row V) → DfValue V}

/-- The own contents summarize the parent. -/
structure World.Settled (op : GroupedOperator V Cache Diff) (arithmetic : Arithmetic V)
    (aggregate : Multiset (Row V) → DfValue V)
    (trace : List (List (Record V) × ProcessingResult V)) (world : World V Cache) : Prop where
  batches : world.batches = trace.map Prod.fst
  parent : world.parent = tableAfter (trace.map Prod.fst)
  summarizes : op.Summarizes arithmetic aggregate world.own world.parent

section

variable {batches : List (List (Record V))}

theorem everyStep_valid (valid : (applyAll 0 batches.flatten).isSome) :
    EveryStep (fun earlier batch => applyAll (tableAfter earlier) batch =
      some (tableAfter (earlier ++ [batch]))) batches := by
  intro earlier batch later split
  obtain ⟨final, applied⟩ := Option.isSome_iff_exists.mp valid
  have whole : batches.flatten = (earlier.flatten ++ batch) ++ later.flatten := by simp [split]
  rw [whole, applyAll_append, Option.bind_eq_some_iff] at applied
  obtain ⟨middle, reached, _⟩ := applied
  have both := reached
  rw [applyAll_append, Option.bind_eq_some_iff] at both
  obtain ⟨before, start, step⟩ := both
  have beforeIs : tableAfter earlier = before := by simp [tableAfter, start]
  have middleIs : tableAfter (earlier ++ [batch]) = middle := by simp [tableAfter, reached]
  rw [beforeIs, middleIs]
  exact step

/-- If the operation computes the aggregates of the groups each batch touches,
the own contents summarize the parent throughout. -/
theorem run_summarizes (exact_ : arith.Exact) (noEmpty : op.inner.emitEmpty = false)
    (materializes : ∀ batches own parent, op.Materializes (materialize batches own parent) own parent)
    {diffOf : Record V → Diff}
    (diffs : ∀ record : Record V, op.inner.toDiff record.value record.isPositive = .ok (diffOf record))
    (valid : (applyAll 0 batches.flatten).isSome)
    (computes : EveryStep (fun earlier batch => ∀ states own,
      op.Materializes states own (tableAfter (earlier ++ [batch])) → ∀ key,
        op.groupRecords batch key ≠ [] → op.Computes aggregate .none nodes states
          (tableAfter earlier) (tableAfter (earlier ++ [batch])) batch diffOf key) batches)
    (cache : Cache) :
    ∃ trace final, run (World.feed op arith nodes materialize) { cache } batches =
        .ok (trace, final) ∧
      trace.map Prod.fst = batches ∧ final.parent = tableAfter batches ∧
      op.Summarizes arith aggregate final.own final.parent := by
  have admitted := (everyStep_valid valid).and computes
  obtain ⟨trace, final, ran, inputs, settled⟩ := run_invariant
    (World.feed op arith nodes materialize) (World.Settled op arith aggregate)
    (by
      rintro trace world batch settled ⟨validHere, computesHere⟩
      rw [← settled.parent] at validHere computesHere
      obtain ⟨ownState, ownHere, ownFull⟩ := (materializes (world.batches ++ [batch]) world.own
        (tableAfter (trace.map Prod.fst ++ [batch]))).own
      obtain ⟨result, next, own, handled, _, applied, summarizes, _⟩ := onInput_spec exact_ noEmpty
        ⟨ownHere, ownFull, settled.summarizes, validHere⟩ (fun record _ => diffs record)
        (computesHere _ _ (materializes _ _ _)) world.cache
      simp only [World.feed, validHere, handled, applied]
      exact ⟨result, _, rfl, by simp [settled.batches], by simp, summarizes⟩)
    (show World.Settled op arith aggregate [] { cache } from
      ⟨rfl, rfl, fun key => by simp [matching, summary, group]⟩) admitted
  refine ⟨trace, final, ran, inputs, ?_, settled.summarizes⟩
  rw [settled.parent, inputs]

end

end GroupedOperator

end ReadySet.Ops.Grouped
