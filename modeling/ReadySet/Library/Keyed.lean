import ReadySet.Library.Signed

/-!
Owns contents that fall into parts by a key, and batches that replace the parts
one by one: a batch that takes one part to another leaves the other parts
alone, and batches for different keys can be run one after the other.
-/

namespace ReadySet.Library

open Multiset

universe u v

variable {α : Type u} {κ : Type v} [DecidableEq κ] (keyOf : α → κ)

def part (contents : Multiset α) (key : κ) : Multiset α :=
  contents.filter fun value => keyOf value = key

theorem part_add (left right : Multiset α) (key : κ) :
    part keyOf (left + right) key = part keyOf left key + part keyOf right key :=
  filter_add _ left right

variable {keyOf} {contents : Multiset α} {key : κ}

theorem mem_part {value : α} :
    value ∈ part keyOf contents key ↔ value ∈ contents ∧ keyOf value = key :=
  mem_filter

theorem part_eq_zero
    (absent : ∀ value ∈ contents, keyOf value ≠ key) : part keyOf contents key = 0 :=
  Multiset.filter_eq_nil.mpr absent

variable [DecidableEq α]

/-- Replacing one part leaves the others alone. -/
theorem applyAll_part {settled : Multiset α} {emitted : List (Signed α)}
    (applied : applyAll (part keyOf contents key) emitted = some settled)
    (keyed : ∀ value ∈ settled, keyOf value = key) :
    ∃ replaced, applyAll contents emitted = some replaced ∧
      part keyOf replaced key = settled ∧
      ∀ other, other ≠ key → part keyOf replaced other = part keyOf contents other := by
  set rest := contents.filter fun value => ¬ keyOf value = key
  have split : contents = rest + part keyOf contents key := by
    rw [add_comm]
    exact (filter_add_not _ contents).symm
  have noneInRest : part keyOf rest key = 0 :=
    part_eq_zero fun value mem => (mem_filter.mp mem).2
  refine ⟨rest + settled, ?_, ?_, ?_⟩
  · conv_lhs => rw [split]
    exact applyAll_add rest applied
  · rw [part_add, noneInRest, zero_add]
    exact filter_eq_self.mpr keyed
  · intro other ne
    have elsewhere : part keyOf settled other = 0 :=
      part_eq_zero fun value mem isOther => ne (isOther ▸ keyed value mem)
    have alsoElsewhere : part keyOf (part keyOf contents key) other = 0 :=
      part_eq_zero fun value mem isOther => ne (isOther ▸ (mem_part.mp mem).2)
    conv_rhs => rw [split]
    rw [part_add, part_add, elsewhere, alsoElsewhere]

/-- Batches for distinct keys, run one after the other. -/
theorem applyAll_parts {groups : List (κ × List (Signed α))}
    (nodup : (groups.map Prod.fst).Nodup) {settled : κ × List (Signed α) → Multiset α}
    (applied : ∀ group ∈ groups, applyAll (part keyOf contents group.1) group.2 =
      some (settled group))
    (keyed : ∀ group ∈ groups, ∀ value ∈ settled group, keyOf value = group.1) :
    ∃ replaced, applyAll contents (groups.flatMap Prod.snd) = some replaced ∧
      (∀ group ∈ groups, part keyOf replaced group.1 = settled group) ∧
      ∀ key ∉ groups.map Prod.fst, part keyOf replaced key = part keyOf contents key := by
  induction groups generalizing contents with
  | nil => exact ⟨contents, rfl, by simp, fun _ _ => rfl⟩
  | cons head groups ih =>
    obtain ⟨fresh, distinctLater⟩ := List.nodup_cons.mp nodup
    obtain ⟨middle, first, isSettled, others⟩ :=
      applyAll_part (applied head (by simp)) (keyed head (by simp))
    have stillThere : ∀ group ∈ groups,
        part keyOf middle group.1 = part keyOf contents group.1 := by
      intro group mem
      apply others
      intro same
      exact fresh (same ▸ List.mem_map_of_mem mem)
    obtain ⟨replaced, later, here, elsewhere⟩ := ih distinctLater (fun group mem => by
        rw [stillThere group mem]
        exact applied group (by simp [mem]))
      (fun group mem => keyed group (by simp [mem]))
    refine ⟨replaced, ?_, List.forall_mem_cons.mpr ⟨?_, here⟩, fun key absent => ?_⟩
    · rw [List.flatMap_cons, applyAll_append, first]
      exact later
    · rw [elsewhere head.1 fresh, isSettled]
    · rw [List.map_cons, List.mem_cons, not_or] at absent
      rw [elsewhere key absent.2, others key absent.1]

/-! ## Sums of bags -/

theorem mem_list_sum {α : Type*} {bags : List (Multiset α)} {value : α} :
    value ∈ bags.sum ↔ ∃ bag ∈ bags, value ∈ bag := by
  induction bags with
  | nil => simp
  | cons bag bags ih => simp [ih]

omit [DecidableEq α] in
/-- The parts of all keys make up the contents. -/
theorem sum_parts {keys : List κ} (nodup : keys.Nodup)
    (covers : ∀ value ∈ contents, keyOf value ∈ keys) :
    (keys.map (part keyOf contents)).sum = contents := by
  classical
  ext value
  have elsewhere (key : κ) (ne : key ≠ keyOf value) (_ : key ∈ keys) :
      (part keyOf contents key).count value = 0 :=
    count_filter_of_neg ne.symm
  have total : (keys.map (part keyOf contents)).sum.count value =
      (keys.map fun key => (part keyOf contents key).count value).sum := by
    simpa [Function.comp_def] using
      map_list_sum (countAddMonoidHom value) (keys.map (part keyOf contents))
  have here : (part keyOf contents (keyOf value)).count value = contents.count value :=
    count_filter_of_pos rfl
  rw [total, List.sum_map_eq_nsmul_single (keyOf value) _ elsewhere, here]
  by_cases mem : value ∈ contents
  · rw [List.count_eq_one_of_mem nodup (covers value mem), one_smul]
  · rw [count_eq_zero_of_notMem mem, smul_zero]

end ReadySet.Library
