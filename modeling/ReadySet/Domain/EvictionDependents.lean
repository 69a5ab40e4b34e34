import ReadySet.Domain.EvictionRelation

/-!
Owns what `dependentsOn` finds: the paths from an index without a record for the
evicted keys, and the recorded keys of the others, whose records it removes (`Finds`).
-/

namespace ReadySet.Domain

open Dataflow DataflowState

section

variable {K : Type} {layout : Layout}

/-- The keys of a path are among those to evict. -/
def Listed (dependents : List (Dependent K)) (tag : Tag) (key : K) : Prop :=
  ∃ dependent ∈ dependents, dependent.tag = tag ∧ key ∈ dependent.keys

/-- All records are about paths of the domain. -/
def Known (layout : Layout) (remapped : RemappedKeys K) : Prop :=
  ∀ node target columns upstream downstream,
    remapped node target columns upstream = some downstream →
      ∀ named ∈ downstream, ∃ path, layout.get named.1 = some path

/-- What looking up the paths below an index finds, and the records it leaves. -/
structure Finds (layout : Layout) (node : LocalNodeIndex) (index : Index) (keys : List K)
    (paths : List (Tag × ReplayPath)) (remapped : RemappedKeys K) (found : List (Dependent K))
    (left : RemappedKeys K) : Prop where
  shrinks : ∀ rewriter target columns upstream downstream,
    left rewriter target columns upstream = some downstream →
      remapped rewriter target columns upstream = some downstream
  removed : ∀ rewriter target columns upstream downstream,
    remapped rewriter target columns upstream = some downstream →
      left rewriter target columns upstream = some downstream ∨
        ∀ named ∈ downstream, ∀ key ∈ named.2, Listed found named.1 key
  rewritten : ∀ entry ∈ paths, entry.2.source = some node → entry.2.triggerKey ≠ none →
    ∀ downstream, remapped.along entry.2 keys = some downstream →
      ∀ named ∈ downstream, ∀ key ∈ named.2, Listed found named.1 key
  along : ∀ entry ∈ paths, entry.2.source = some node → entry.2.triggerKey = some index →
    remapped.along entry.2 keys = none → ∀ key ∈ keys, Listed found entry.1 key
  sound : ∀ dependent ∈ found,
    (∃ entry ∈ paths, entry.2.source = some node ∧ entry.2.triggerKey = some index ∧
      dependent = ⟨entry.1, entry.2, keys⟩) ∨
    ∃ entry ∈ paths, entry.2.source = some node ∧ entry.2.triggerKey ≠ none ∧
      ∃ downstream, remapped.along entry.2 keys = some downstream ∧
        ∃ named ∈ downstream, dependent.tag = named.1 ∧ dependent.keys = named.2 ∧
          layout.get dependent.tag = some dependent.path

variable {node : LocalNodeIndex} {index : Index} {keys : List K} {remapped : RemappedKeys K}
  {found others : List (Dependent K)} {tag : Tag} {key : K}

theorem Listed.append_left (listed : Listed found tag key) : Listed (found ++ others) tag key := by
  obtain ⟨dep, mem, same, isKey⟩ := listed
  exact ⟨dep, List.mem_append_left others mem, same, isKey⟩

theorem Listed.append_right (listed : Listed others tag key) :
    Listed (found ++ others) tag key := by
  obtain ⟨dep, mem, same, isKey⟩ := listed
  exact ⟨dep, List.mem_append_right found mem, same, isKey⟩

variable {entry : Tag × ReplayPath}

theorem finds_nothing (elsewhere : entry.2.source = some node → entry.2.triggerKey = none) :
    Finds layout node index keys [entry] remapped [] remapped where
  shrinks _ _ _ _ _ known := known
  removed _ _ _ _ _ known := .inl known
  rewritten other mem isSource isTriggered := by
    rw [List.mem_singleton.mp mem] at isSource isTriggered
    exact absurd (elsewhere isSource) isTriggered
  along other mem isSource isTriggered := by
    rw [List.mem_singleton.mp mem] at isSource isTriggered
    rw [elsewhere isSource] at isTriggered
    nomatch isTriggered
  sound _ mem := nomatch mem

/-- A path without a record leads to the evicted keys themselves. -/
theorem finds_along {trigger : Index} (isSource : entry.2.source = some node)
    (isTrigger : entry.2.triggerKey = some trigger)
    (unrecorded : remapped.along entry.2 keys = none) :
    Finds layout node index keys [entry] remapped
      (if trigger = index then [⟨entry.1, entry.2, keys⟩] else []) remapped where
  shrinks _ _ _ _ _ known := known
  removed _ _ _ _ _ known := .inl known
  rewritten other mem _ _ downstream known := by
    rw [List.mem_singleton.mp mem, unrecorded] at known
    nomatch known
  along other mem _ isIndex _ key isKey := by
    rw [List.mem_singleton.mp mem] at isIndex ⊢
    have same : trigger = index := Option.some.inj (isTrigger.symm.trans isIndex)
    rw [if_pos same]
    exact ⟨_, List.mem_singleton_self _, rfl, isKey⟩
  sound dep mem := by
    split at mem
    · next same =>
        subst same
        exact .inl ⟨entry, List.mem_singleton_self _, isSource, isTrigger,
          List.mem_singleton.mp mem⟩
    · nomatch mem

variable {downstream : List (Tag × List K)}

theorem exists_named (known : ∀ named ∈ downstream, ∃ path, layout.get named.1 = some path) :
    ∃ found, downstream.mapM (remappedDependent layout) = .ok found ∧
      List.Forall₂ (fun (named : Tag × List K) (dep : Dependent K) =>
        dep.tag = named.1 ∧ dep.keys = named.2 ∧
          layout.get named.1 = some dep.path) downstream found := by
  refine Library.exists_mapM_iff.mpr fun named mem => ?_
  obtain ⟨path, isPath⟩ := known named mem
  refine ⟨⟨named.1, path, named.2⟩, ?_, rfl, rfl, isPath⟩
  rw [remappedDependent, isPath]

variable [DecidableEq K]

theorem remove_or_along {path : ReplayPath} {rewriter target : LocalNodeIndex}
    {cols : List Nat} {upstream : List K}
    (known : remapped rewriter target cols upstream = some downstream) :
    remapped.remove path keys rewriter target cols upstream = some downstream ∨
      remapped.along path keys = some downstream := by
  rw [RemappedKeys.remove]
  split
  · next removed =>
      obtain ⟨sameNode, isTarget, isColumns, sameKeys⟩ := removed
      obtain ⟨targetIndex, isIndex, sameColumns⟩ := Option.map_eq_some_iff.mp isColumns
      subst sameNode sameKeys sameColumns
      exact .inr (by simp [RemappedKeys.along, isTarget, isIndex, known])
  · exact .inl known

/-- A path with a record of the evicted keys leads to the recorded keys. -/
theorem finds_rewritten (isSource : entry.2.source = some node)
    (isTrigger : entry.2.triggerKey ≠ none)
    (recorded : remapped.along entry.2 keys = some downstream)
    (named : List.Forall₂ (fun (named : Tag × List K) (dep : Dependent K) => dep.tag
      = named.1 ∧ dep.keys = named.2 ∧
      layout.get named.1 = some dep.path) downstream found) :
    Finds layout node index keys [entry] remapped found (remapped.remove entry.2 keys) := by
  have listed : ∀ other ∈ downstream, ∀ key ∈ other.2, Listed found other.1 key := by
    intro other mem key isKey
    obtain ⟨dep, isFound, sameTag, sameKeys, _⟩ := Library.exists_right_of_forall₂ named mem
    exact ⟨dep, isFound, sameTag, sameKeys ▸ isKey⟩
  refine ⟨fun _ _ _ _ _ known => ?_, ?_, ?_, ?_, ?_⟩
  · rw [RemappedKeys.remove] at known
    split at known
    · nomatch known
    · exact known
  · intro rewriter target cols upstream others known
    refine (remove_or_along known).imp_right fun isRecord => ?_
    rw [recorded] at isRecord
    exact Option.some.inj isRecord ▸ listed
  · intro other mem _ _ others known
    rw [List.mem_singleton.mp mem, recorded] at known
    exact Option.some.inj known ▸ listed
  · intro other mem _ _ unrecorded
    rw [List.mem_singleton.mp mem, recorded] at unrecorded
    nomatch unrecorded
  · intro dep mem
    obtain ⟨other, isNamed, sameTag, sameKeys, isPath⟩ := Library.exists_left_of_forall₂ named mem
    exact .inr ⟨entry, List.mem_singleton_self _, isSource, isTrigger, downstream, recorded,
      other, isNamed, sameTag, sameKeys, sameTag ▸ isPath⟩

variable (node index keys) in
theorem pathDependents_finds (known : Known layout remapped) (entry : Tag × ReplayPath) :
    ∃ found left, pathDependents layout node index keys entry.1 entry.2 remapped = .ok (found, left) ∧
      Finds layout node index keys [entry] remapped found left := by
  by_cases isSource : entry.2.source = some node
  · rw [pathDependents, if_pos isSource]
    cases isTrigger : entry.2.triggerKey with
    | none => exact ⟨[], remapped, rfl, finds_nothing fun _ => isTrigger⟩
    | some trigger =>
      cases recorded : remapped.along entry.2 keys with
      | none => exact ⟨_, remapped, rfl, finds_along isSource isTrigger recorded⟩
      | some downstream =>
        obtain ⟨target, _, isRecord⟩ := Option.bind_eq_some_iff.mp recorded
        obtain ⟨targetIndex, _, isRecord⟩ := Option.bind_eq_some_iff.mp isRecord
        obtain ⟨found, mapped, named⟩ := exists_named (known _ _ _ _ _ isRecord)
        exact ⟨found, _, by simp only [mapped]; rfl,
          finds_rewritten isSource (by simp [isTrigger]) recorded named⟩
  · rw [pathDependents, if_neg isSource]
    exact ⟨[], remapped, rfl, finds_nothing fun same => absurd same isSource⟩

omit [DecidableEq K] in
/-- The paths are searched one after the other. -/
theorem Finds.cons {paths : List (Tag × ReplayPath)} {middle left : RemappedKeys K}
    (first : Finds layout node index keys [entry] remapped found middle)
    (second : Finds layout node index keys paths middle others left) :
    Finds layout node index keys (entry :: paths) remapped (found ++ others) left where
  shrinks rewriter target cols upstream downstream known :=
    first.shrinks _ _ _ _ _ (second.shrinks _ _ _ _ _ known)
  removed rewriter target cols upstream downstream known := by
    rcases first.removed _ _ _ _ _ known with kept | listed
    · exact (second.removed _ _ _ _ _ kept).imp_right fun listed named mem key isKey =>
        (listed named mem key isKey).append_right
    · exact .inr fun named mem key isKey => (listed named mem key isKey).append_left
  rewritten other mem isSource isTrigger downstream known := by
    rcases List.mem_cons.mp mem with same | later
    · exact fun named isNamed key isKey => (first.rewritten other (by simp [same]) isSource isTrigger
        downstream known named isNamed key isKey).append_left
    · obtain ⟨target, isTarget, isRecord⟩ := Option.bind_eq_some_iff.mp known
      obtain ⟨targetIndex, isIndex, isRecord⟩ := Option.bind_eq_some_iff.mp isRecord
      rcases first.removed _ _ _ _ _ isRecord with kept | listed
      · have recorded : middle.along other.2 keys = some downstream := by
          simp [RemappedKeys.along, isTarget, isIndex, kept]
        exact fun named isNamed key isKey => (second.rewritten other later isSource isTrigger
          downstream recorded named isNamed key isKey).append_right
      · exact fun named isNamed key isKey => (listed named isNamed key isKey).append_left
  along other mem isSource isTrigger unrecorded key isKey := by
    rcases List.mem_cons.mp mem with same | later
    · exact (first.along other (by simp [same]) isSource isTrigger unrecorded key isKey).append_left
    · refine (second.along other later isSource isTrigger ?_ key isKey).append_right
      refine Option.eq_none_iff_forall_ne_some.mpr fun downstream recorded => ?_
      rw [along_shrinks first.shrinks recorded] at unrecorded
      cases unrecorded
  sound dep mem := by
    rcases List.mem_append.mp mem with early | late
    · rcases first.sound dep early with ⟨other, isEntry, rest⟩ | ⟨other, isEntry, rest⟩
      · exact .inl ⟨other, by simp [List.mem_singleton.mp isEntry], rest⟩
      · exact .inr ⟨other, by simp [List.mem_singleton.mp isEntry], rest⟩
    · rcases second.sound dep late with
        ⟨other, isEntry, rest⟩ | ⟨other, isEntry, isSource, isTrigger, downstream, known, rest⟩
      · exact .inl ⟨other, List.mem_cons_of_mem _ isEntry, rest⟩
      · exact .inr ⟨other, List.mem_cons_of_mem _ isEntry, isSource, isTrigger, downstream,
          along_shrinks first.shrinks known, rest⟩

variable (node index keys) in
/-- All paths are searched. -/
theorem dependentsOn_finds (known : Known layout remapped) (paths : List (Tag × ReplayPath)) :
    ∃ found left, dependentsOn layout node index keys paths remapped = .ok (found, left) ∧
      Finds layout node index keys paths remapped found left := by
  induction paths generalizing remapped with
  | nil =>
    exact ⟨[], remapped, rfl, fun _ _ _ _ _ known => known, fun _ _ _ _ _ known => .inl known,
      fun _ mem => (nomatch mem), fun _ mem => (nomatch mem),
      fun _ mem => (nomatch mem)⟩
  | cons entry paths ih =>
    obtain ⟨found, middle, isFirst, first⟩ := pathDependents_finds node index keys known entry
    have knownMiddle : Known layout middle := fun _ _ _ _ _ recorded =>
      known _ _ _ _ _ (first.shrinks _ _ _ _ _ recorded)
    obtain ⟨others, left, isSecond, second⟩ := ih knownMiddle
    refine ⟨found ++ others, left, ?_, first.cons second⟩
    rw [dependentsOn, isFirst]
    change (do
      let rest ← dependentsOn layout node index keys paths middle
      pure (found ++ rest.1, rest.2)) = _
    rw [isSecond]
    rfl

end

end ReadySet.Domain
