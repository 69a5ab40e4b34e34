import ReadySet.Library.Runs

/-!
Owns the documented behaviour of standard containers that disturb the order of
their elements: a binary heap, which keeps its elements in an unspecified order
and yields a greatest one, an unstable sort, which may order ties either way,
and a vector's `swap_remove`, which fills the gap with the last element.

The first two are structures over their operations, so that a development
quantifies over every implementation. `BinaryHeap.simple` and
`UnstableSort.simple` are implementations to compute with.
-/

namespace ReadySet.Library

open List

universe u

variable {α : Type u} {list : List α}

/-- A sort that yields some sorted permutation. -/
structure UnstableSort (α : Type u) (cmp : α → α → Ordering) where
  sort : List α → List α
  perm : ∀ list, (sort list).Perm list
  sorted : ∀ list, (sort list).Pairwise fun left right => (cmp left right).isLE = true

/-- A max-heap, as the list of its elements in the order of its backing vector.
`retain` is given the elements that stay, in that order. -/
structure BinaryHeap (α : Type u) (cmp : α → α → Ordering) where
  extend : List α → List α → List α
  extend_perm : ∀ heap items, (extend heap items).Perm (heap ++ items)
  push : List α → α → List α
  push_perm : ∀ heap item, (push heap item).Perm (item :: heap)
  retain : List α → List α → List α
  retain_perm : ∀ heap kept, (retain heap kept).Perm kept
  peek : List α → Option α
  peek_eq_none : ∀ heap, peek heap = none → heap = []
  peek_greatest : ∀ heap top, peek heap = some top →
    top ∈ heap ∧ ∀ other ∈ heap, (cmp other top).isLE = true
  intoSortedVec : UnstableSort α cmp

section

variable (cmp : α → α → Ordering) [Std.TransCmp cmp]

def UnstableSort.simple : UnstableSort α cmp where
  sort list := list.insertionSort fun left right => (cmp left right).isLE
  perm := List.perm_insertionSort _
  sorted := stableSort_pairwise cmp id

def greatest : List α → Option α
  | [] => none
  | head :: tail =>
    match greatest tail with
    | none => some head
    | some top => if (cmp head top).isLE then some top else some head

omit [Std.TransCmp cmp] in
theorem greatest_eq_none (empty : greatest cmp list = none) : list = [] := by
  cases list with
  | nil => rfl
  | cons head tail =>
    rw [greatest] at empty
    split at empty
    · contradiction
    · split_ifs at empty

/-- No element is above the greatest one. -/
theorem greatest_spec {top : α} (found : greatest cmp list = some top) :
    top ∈ list ∧ ∀ other ∈ list, (cmp other top).isLE = true := by
  induction list generalizing top with
  | nil => simp [greatest] at found
  | cons head tail ih =>
    rw [greatest] at found
    split at found
    case h_1 empty =>
      obtain rfl : head = top := by simpa using found
      obtain rfl := greatest_eq_none cmp empty
      simp [Std.ReflCmp.isLE_rfl]
    case h_2 best tailBest =>
      obtain ⟨mem, above⟩ := ih tailBest
      split_ifs at found with below
      · obtain rfl : best = top := by simpa using found
        refine ⟨mem_cons_of_mem _ mem, fun other mem => ?_⟩
        rcases mem_cons.mp mem with rfl | mem
        · exact below
        · exact above other mem
      · obtain rfl : head = top := by simpa using found
        refine ⟨mem_cons_self, fun other mem => ?_⟩
        rcases mem_cons.mp mem with rfl | mem
        · exact Std.ReflCmp.isLE_rfl
        · apply Std.TransCmp.isLE_trans (above other mem)
          exact (isLE_total cmp best head).resolve_right below

def BinaryHeap.simple : BinaryHeap α cmp where
  extend heap items := heap ++ items
  extend_perm _ _ := List.Perm.refl _
  push heap item := item :: heap
  push_perm _ _ := List.Perm.refl _
  retain _ kept := kept
  retain_perm _ _ := List.Perm.refl _
  peek := greatest cmp
  peek_eq_none _ := greatest_eq_none cmp
  peek_greatest _ _ := greatest_spec cmp
  intoSortedVec := UnstableSort.simple cmp

end

/-! ## Removal by swapping -/

/-- `Vec::swap_remove`: the last element takes the place of the removed one. -/
def swapRemove (list : List α) (index : Nat) : List α :=
  match list.getLast? with
  | none => list
  | some last => (list.set index last).dropLast

theorem swapRemove_perm {index : Nat} (bound : index < list.length) :
    (swapRemove list index).Perm (list.eraseIdx index) := by
  rcases eq_nil_or_concat' list with rfl | ⟨front, last, rfl⟩
  · simp at bound
  · have removed : swapRemove (front ++ [last]) index =
        ((front ++ [last]).set index last).dropLast := by
      simp [swapRemove]
    rw [removed]
    by_cases inFront : index < front.length
    · rw [set_append_left _ _ inFront, dropLast_concat, eraseIdx_append_of_lt_length inFront]
      apply (set_perm_cons_eraseIdx inFront last).trans
      exact (perm_append_singleton last _).symm
    · have atEnd : index = front.length := by
        simp at bound
        omega
      rw [atEnd, eraseIdx_append_of_length_le le_rfl]
      simp

def swapRemoveFirst [DecidableEq α] (list : List α) (element : α) : List α :=
  match list.idxOf? element with
  | some index => swapRemove list index
  | none => list

theorem swapRemoveFirst_perm [DecidableEq α] (list : List α) (elem : α) :
    (swapRemoveFirst list elem).Perm (list.erase elem) := by
  rw [swapRemoveFirst]
  split
  case h_1 index found =>
    have bound : index < list.length := by
      obtain ⟨inRange, _⟩ := idxOf?_eq_some_iff.mp found
      exact inRange
    rw [erase_eq_eraseIdx, found]
    exact swapRemove_perm bound
  case h_2 absent =>
    rw [erase_of_not_mem (idxOf?_eq_none_iff.mp absent)]

end ReadySet.Library
