import Mathlib

/-!
Owns the split of a list into runs: maximal blocks of consecutive elements with
one key, as `itertools`' lazy `group_by` hands them out. Keys may come back in
a later run; on a list sorted by key they cannot (`runs_keys_nodup`). A batch
that is stably sorted by key first therefore comes apart into one run for each
key, with the key's elements in their original order (`eq_filter_of_mem_groupsOf`).
-/

namespace ReadySet.Library

open List

universe u v

variable {α : Type u} {κ : Type v} [DecidableEq κ]

/-- The runs of consecutive elements with equal key, each with its key. -/
def runs (key : α → κ) : List α → List (κ × List α)
  | [] => []
  | element :: rest =>
    match runs key rest with
    | [] => [(key element, [element])]
    | (next, run) :: more =>
      if key element = next then (next, element :: run) :: more
      else (key element, [element]) :: (next, run) :: more

theorem runs_flatten (key : α → κ) (list : List α) :
    ((runs key list).map Prod.snd).flatten = list := by
  induction list with
  | nil => rfl
  | cons elem rest ih =>
    rw [runs]
    split
    case h_1 empty => simpa [empty] using ih
    case h_2 next run more grouped =>
      rw [grouped] at ih
      split_ifs <;> simpa using ih

variable {group : κ × List α}

/-- Every element of a run has the run's key, and no run is empty. -/
theorem runs_spec (key : α → κ) (list : List α) (mem : group ∈ runs key list) :
    group.2 ≠ [] ∧ ∀ elem ∈ group.2, key elem = group.1 := by
  induction list generalizing group with
  | nil => simp [runs] at mem
  | cons elem rest ih =>
    rw [runs] at mem
    split at mem
    case h_1 =>
      obtain rfl : group = (key elem, [elem]) := by simpa using mem
      simp
    case h_2 next run more grouped =>
      rw [grouped] at ih
      have older := @ih (next, run) (by simp)
      split_ifs at mem with same
      · rcases mem_cons.mp mem with rfl | later
        · refine ⟨by simp, ?_⟩
          intro other present
          rcases mem_cons.mp present with rfl | present
          · exact same
          · exact older.2 other present
        · exact ih (mem_cons_of_mem _ later)
      · rcases mem_cons.mp mem with rfl | later
        · simp
        · exact ih later

section

variable (key : α → κ) {list : List α} (mem : group ∈ runs key list) {elem : α}
  (present : elem ∈ group.2)

include key mem present

theorem runs_key_of_mem : key elem = group.1 := (runs_spec key list mem).2 elem present

theorem mem_of_mem_runs : elem ∈ list := by
  rw [← runs_flatten key list]
  exact mem_flatten.mpr ⟨group.2, mem_map.mpr ⟨group, mem, rfl⟩, present⟩

end

section

variable (key : α → κ) (list : List α)

/-- The elements of one key are its runs, one after the other. -/
theorem filter_key_eq_flatMap_runs (wanted : κ) :
    (list.filter fun elem => key elem = wanted) =
      (runs key list).flatMap fun group => if group.1 = wanted then group.2 else [] := by
  conv_lhs => rw [← runs_flatten key list]
  rw [filter_flatten, map_map]
  refine congrArg flatten (map_congr_left fun group mem => ?_)
  have keyed := (runs_spec key list mem).2
  by_cases here : group.1 = wanted
  · rw [if_pos here]
    refine filter_eq_self.mpr fun elem present => ?_
    simp [keyed elem present, here]
  · rw [if_neg here]
    refine filter_eq_nil_iff.mpr fun elem present => ?_
    simp [keyed elem present, here]

/-- With one run for each key, a run holds all elements of its key. -/
theorem run_eq_filter (once : ((runs key list).map Prod.fst).Nodup) (mem : group ∈ runs key list) :
    group.2 = list.filter fun elem => key elem = group.1 := by
  rw [filter_key_eq_flatMap_runs]
  generalize runs key list = groups at once mem
  induction groups with
  | nil => simp at mem
  | cons head groups ih =>
    rw [map_cons, nodup_cons] at once
    rw [flatMap_cons]
    rcases mem_cons.mp mem with rfl | later
    · have elsewhere : ∀ other ∈ groups, other.1 ≠ group.1 := by
        intro other memberOther same
        exact once.1 (same ▸ mem_map_of_mem memberOther)
      have noMore :
          (groups.flatMap fun other => if other.1 = group.1 then other.2 else []) = [] := by
        refine flatMap_eq_nil_iff.mpr fun other memberOther => ?_
        exact if_neg (elsewhere other memberOther)
      rw [if_pos rfl, noMore, append_nil]
    · have ne : head.1 ≠ group.1 := by
        intro same
        exact once.1 (same ▸ mem_map_of_mem later)
      rw [if_neg ne]
      exact ih once.2 later

theorem mem_keys_runs (wanted : κ) :
    wanted ∈ (runs key list).map Prod.fst ↔ ∃ elem ∈ list, key elem = wanted := by
  constructor
  · intro mem
    obtain ⟨group, grouped, rfl⟩ := mem_map.mp mem
    obtain ⟨nonempty, keyed⟩ := runs_spec key list grouped
    obtain ⟨elem, present⟩ := exists_mem_of_ne_nil _ nonempty
    exact ⟨elem, mem_of_mem_runs key grouped present, keyed elem present⟩
  · rintro ⟨elem, present, rfl⟩
    rw [← runs_flatten key list] at present
    obtain ⟨run, isRun, inRun⟩ := mem_flatten.mp present
    obtain ⟨group, grouped, rfl⟩ := mem_map.mp isRun
    rw [runs_key_of_mem key grouped inRun]
    exact mem_map_of_mem grouped

end

/-! ## Stable sorting by key -/

section

omit [DecidableEq κ] in
theorem isLE_total (cmp : κ → κ → Ordering) [Std.OrientedCmp cmp] (left right : κ) :
    (cmp left right).isLE = true ∨ (cmp right left).isLE = true := by
  have swapped : cmp right left = (cmp left right).swap := Std.OrientedCmp.eq_swap
  rw [swapped]
  cases cmp left right <;> simp

variable (cmp : κ → κ → Ordering) (key : α → κ)

/-- `slice::sort_by` on a key: a stable sort. -/
def stableSort (list : List α) : List α :=
  list.insertionSort fun left right => (cmp (key left) (key right)).isLE

omit [DecidableEq κ] in
theorem stableSort_perm (list : List α) : (stableSort cmp key list).Perm list :=
  perm_insertionSort _ list

variable [Std.TransCmp cmp]

omit [DecidableEq κ] in
theorem stableSort_pairwise (list : List α) : (stableSort cmp key list).Pairwise fun left right =>
      (cmp (key left) (key right)).isLE = true := by
  have total : Std.Total fun left right : α => (cmp (key left) (key right)).isLE = true :=
    ⟨fun left right => isLE_total cmp (key left) (key right)⟩
  have trans : IsTrans α fun left right => (cmp (key left) (key right)).isLE = true :=
    ⟨fun _ _ _ => Std.TransCmp.isLE_trans⟩
  exact pairwise_insertionSort _ list

theorem filter_stableSort (list : List α) (wanted : κ) :
    (stableSort cmp key list).filter (fun elem => key elem = wanted) =
      list.filter fun elem => key elem = wanted := by
  have ties : (list.filter fun elem => key elem = wanted).Pairwise fun left right =>
      (cmp (key left) (key right)).isLE = true := by
    refine pairwise_of_forall_mem_list fun left isLeft right isRight => ?_
    rw [of_decide_eq_true (mem_filter.mp isLeft).2, of_decide_eq_true (mem_filter.mp isRight).2]
    exact Std.ReflCmp.isLE_rfl
  have kept := (sublist_insertionSort ties filter_sublist).filter fun elem => key elem = wanted
  rw [filter_filter, funext fun _ => Bool.and_self _] at kept
  exact (kept.eq_of_length ((stableSort_perm cmp key list).filter _).length_eq.symm).symm

variable [Std.LawfulEqCmp cmp]

omit [Std.TransCmp cmp] [DecidableEq κ] in
theorem lt_of_isLE_of_ne {left right : κ} (below : (cmp left right).isLE = true)
    (ne : left ≠ right) : cmp left right = .lt := by
  cases result : cmp left right with
  | lt => rfl
  | eq => exact absurd (Std.LawfulEqCmp.eq_of_compare result) ne
  | gt => simp [result] at below

section

variable {list : List α}
  (sorted : list.Pairwise fun left right => (cmp (key left) (key right)).isLE = true)

include sorted

/-- The runs of a sorted list have increasing keys. -/
theorem runs_keys_pairwise :
    ((runs key list).map Prod.fst).Pairwise fun left right => cmp left right = .lt := by
  induction list with
  | nil => exact Pairwise.nil
  | cons elem rest ih =>
    rw [pairwise_cons] at sorted
    have mono := ih sorted.2
    have later : ∀ wanted ∈ (runs key rest).map Prod.fst, (cmp (key elem) wanted).isLE = true := by
      intro wanted mem
      obtain ⟨other, present, rfl⟩ := (mem_keys_runs key rest wanted).mp mem
      exact sorted.1 other present
    rw [runs]
    split
    case h_1 => exact pairwise_singleton _ _
    case h_2 next run more grouped =>
      rw [grouped] at mono later
      split_ifs with same
      · exact mono
      · have first : cmp (key elem) next = .lt := lt_of_isLE_of_ne cmp (later next (by simp)) same
        rw [map_cons, pairwise_cons]
        refine ⟨fun wanted mem => ?_, mono⟩
        rcases mem_cons.mp mem with rfl | after
        · exact first
        · exact Std.TransCmp.lt_trans first ((pairwise_cons.mp mono).1 wanted after)

theorem runs_keys_nodup : ((runs key list).map Prod.fst).Nodup := by
  refine (runs_keys_pairwise cmp key sorted).imp ?_
  rintro wanted _ below rfl
  exact Std.OrientedCmp.not_lt_of_lt below below

end

/-- The elements of each key, with the keys in order. -/
def groupsOf (list : List α) : List (κ × List α) := runs key (stableSort cmp key list)

variable {cmp key} {list : List α} {wanted : κ}

theorem groupsOf_keys_nodup : ((groupsOf cmp key list).map Prod.fst).Nodup :=
  runs_keys_nodup cmp key (stableSort_pairwise cmp key list)

/-- **A stably sorted batch comes apart by key**: one run for each key, with
the key's elements in their original order. -/
theorem eq_filter_of_mem_groupsOf (mem : group ∈ groupsOf cmp key list) :
    group.2 = list.filter fun elem => key elem = group.1 := by
  rw [run_eq_filter key _ groupsOf_keys_nodup mem, filter_stableSort]

section

omit [Std.TransCmp cmp] [Std.LawfulEqCmp cmp]

theorem ne_nil_of_mem_groupsOf (mem : group ∈ groupsOf cmp key list) : group.2 ≠ [] :=
  (runs_spec key _ mem).1

theorem mem_keys_groupsOf : wanted ∈ (groupsOf cmp key list).map Prod.fst ↔
    (list.filter fun elem => key elem = wanted) ≠ [] := by
  rw [groupsOf, mem_keys_runs]
  simp [(stableSort_perm cmp key list).mem_iff]

theorem groupsOf_ne_nil (some : list ≠ []) : groupsOf cmp key list ≠ [] := by
  obtain ⟨elem, mem⟩ := exists_mem_of_ne_nil _ some
  have inKeys : key elem ∈ (groupsOf cmp key list).map Prod.fst :=
    mem_keys_groupsOf.mpr (ne_nil_of_mem (mem_filter.mpr ⟨mem, by simp⟩))
  intro none
  simp [none] at inKeys

end

omit [Std.LawfulEqCmp cmp] in
theorem groupsOf_of_keyed (some : list ≠ []) (keyed : ∀ elem ∈ list, key elem = wanted) :
    groupsOf cmp key list = [(wanted, list)] := by
  have sorted : stableSort cmp key list = list := by
    have same := filter_stableSort cmp key list wanted
    rwa [filter_eq_self.mpr fun elem mem => decide_eq_true (keyed elem mem),
      filter_eq_self.mpr fun elem mem => decide_eq_true (keyed elem
        ((stableSort_perm cmp key list).mem_iff.mp mem))] at same
  rw [groupsOf, sorted]
  clear sorted
  induction list with
  | nil => exact absurd rfl some
  | cons elem rest ih =>
    obtain ⟨isKey, keyedRest⟩ := forall_mem_cons.mp keyed
    by_cases last : rest = []
    · simp [last, runs, isKey]
    · simp [runs, ih last keyedRest, isKey]

end

end ReadySet.Library
