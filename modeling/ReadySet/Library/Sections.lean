import Mathlib

/-!
Owns scans of ordered lists: a scan that drops the elements before a section
and takes the elements of the section finds all of them when the order keeps
the section in one piece. In a lexicographic order the lists that start with a
given one are such a section.
-/

namespace ReadySet.Library

open List

universe u

variable {α : Type u} {list : List α}

section

variable {first second : α → Bool} (agree : ∀ elem ∈ list, first elem = second elem)

include agree

theorem takeWhile_congr_of_mem : list.takeWhile first = list.takeWhile second := by
  induction list with
  | nil => rfl
  | cons head tail ih =>
    rw [takeWhile_cons, takeWhile_cons, agree head mem_cons_self,
      ih fun elem mem => agree elem (mem_cons_of_mem head mem)]

theorem dropWhile_congr_of_mem : list.dropWhile first = list.dropWhile second := by
  induction list with
  | nil => rfl
  | cons head tail ih =>
    rw [dropWhile_cons, dropWhile_cons, agree head mem_cons_self,
      ih fun elem mem => agree elem (mem_cons_of_mem head mem)]

end

section

variable {initial : α → Bool}
  (downward : list.Pairwise fun earlier later => initial later = true → initial earlier = true)
include downward

/-- Where a test can only turn false along a list, it is false from the first element that
fails it on. -/
theorem false_of_mem_dropWhile {elem : α} (mem : elem ∈ list.dropWhile initial) :
    initial elem = false := by
  have past := downward.sublist (dropWhile_sublist initial)
  have first := head?_dropWhile_not initial list
  cases isRest : list.dropWhile initial with
  | nil => simp [isRest] at mem
  | cons head tail =>
    rw [isRest] at mem past first
    rcases mem_cons.mp mem with rfl | later
    · exact first
    · exact Bool.eq_false_iff.mpr fun holds =>
        Bool.false_ne_true (first.symm.trans ((pairwise_cons.mp past).1 elem later holds))

/-- A section that begins the list is taken whole. -/
theorem takeWhile_eq_filter : list.takeWhile initial = list.filter initial := by
  conv_rhs => rw [← takeWhile_append_dropWhile (p := initial) (l := list), filter_append]
  rw [filter_eq_self.mpr fun _ => mem_takeWhile_imp, filter_eq_nil_iff.mpr
    fun _ mem => by simp [false_of_mem_dropWhile downward mem], append_nil]

/-- What a list begins with is dropped whole. -/
theorem dropWhile_eq_filter : list.dropWhile initial = list.filter fun elem => !initial elem := by
  conv_rhs => rw [← takeWhile_append_dropWhile (p := initial) (l := list), filter_append]
  rw [filter_eq_nil_iff.mpr fun _ mem => by simp [mem_takeWhile_imp mem],
    filter_eq_self.mpr fun _ mem => by simp [false_of_mem_dropWhile downward mem],
    nil_append]

/-- Skipping by one test drops what a list begins with by another exactly if
all of that is skipped, and the first element after it is not. -/
theorem dropWhile_eq_filter_iff {skips : α → Bool} :
    (list.dropWhile skips = list.filter fun elem => !initial elem) ↔
      (∀ elem ∈ list, initial elem = true → skips elem = true) ∧
        ∀ elem ∈ list.find? fun elem => !initial elem, skips elem = false := by
  have parts : list.filter initial ++ list.filter (fun elem => !initial elem) = list := by
    rw [← takeWhile_eq_filter downward, ← dropWhile_eq_filter downward]
    exact takeWhile_append_dropWhile
  have all_iff : (∀ elem ∈ list, initial elem = true → skips elem = true) ↔
      (list.filter initial).dropWhile skips = [] := by
    simp
  rw [all_iff, ← head?_filter]
  conv_lhs => lhs; rw [← parts]
  generalize list.filter initial = first
  generalize list.filter (fun elem => !initial elem) = rest
  rw [dropWhile_append]
  by_cases skipped : first.dropWhile skips = []
  · rw [if_pos (by simp [skipped]), and_iff_right skipped]
    cases rest <;> simp
  · refine iff_of_false (fun same => skipped ?_) fun both => skipped both.1
    rw [if_neg (by simpa using skipped)] at same
    exact append_left_eq_self.mp same

/-- Where a test can only turn false along a list, it does not matter whether the
first element of another test is looked for among those that pass it. -/
theorem find?_filter_of_downward {wanted : α → Bool} :
    (list.filter initial).find? wanted = (list.find? wanted).filter initial := by
  conv_rhs => rw [← takeWhile_append_dropWhile (p := initial) (l := list), find?_append]
  rw [← takeWhile_eq_filter downward]
  cases found : (list.takeWhile initial).find? wanted with
  | some elem =>
    have isInitial : initial elem = true := mem_takeWhile_imp (mem_of_find?_eq_some found)
    simp [Option.filter, isInitial]
  | none =>
    cases later : (list.dropWhile initial).find? wanted with
    | none => rfl
    | some elem =>
      have past := false_of_mem_dropWhile downward (mem_of_find?_eq_some later)
      simp [Option.filter, past]

end

/-- A section in one piece is found by dropping what comes before it. -/
theorem takeWhile_dropWhile {before inside : α → Bool}
    (apart : ∀ elem ∈ list, before elem = true → inside elem = false)
    (downward : list.Pairwise fun earlier later => before later = true → before earlier = true)
    (together : list.Pairwise fun earlier later => before earlier = false → inside later = true →
      inside earlier = true) : (list.dropWhile before).takeWhile inside = list.filter inside := by
  have joined := (together.sublist (dropWhile_sublist before)).imp_of_mem
    fun isEarlier _ joined => joined (false_of_mem_dropWhile downward isEarlier)
  rw [takeWhile_eq_filter joined]
  conv_rhs => rw [← takeWhile_append_dropWhile (p := before) (l := list), filter_append]
  have none_before : (list.takeWhile before).filter inside = [] := by
    refine filter_eq_nil_iff.mpr fun elem mem => ?_
    simp [apart elem ((takeWhile_sublist before).subset mem) (mem_takeWhile_imp mem)]
  rw [none_before, nil_append]

/-- Two ends of a list that show the same, with the same after them, are the same. -/
theorem suffix_eq_iff {left right : List α} (isLeft : left <:+ list)
    (isRight : right <:+ list) {β : Type u} (shown : α → β) (after : Multiset β) :
    ((left.map shown : List β) : Multiset β) + after =
      ((right.map shown : List β) : Multiset β) + after ↔ left = right := by
  constructor
  · intro same
    have cards : left.length = right.length := by
      simpa using congrArg Multiset.card (add_right_cancel same)
    exact (suffix_of_suffix_length_le isLeft isRight cards.le).eq_of_length cards
  · rintro rfl
    rfl

/-- The elements of two tests that exclude each other are those of either. -/
theorem filter_append_filter_perm {first second either : α → Bool}
    (apart : ∀ elem ∈ list, first elem = true → second elem = false)
    (covers : ∀ elem ∈ list, either elem = (first elem || second elem)) :
    (list.filter first ++ list.filter second).Perm (list.filter either) := by
  have parts := filter_append_perm first (list.filter either)
  rw [filter_filter, filter_filter] at parts
  convert parts using 2
  · refine filter_congr fun elem mem => ?_
    cases isFirst : first elem <;> simp [covers elem mem, isFirst]
  · refine filter_congr fun elem mem => ?_
    cases isFirst : first elem <;> simp_all

/-! ## Lists ordered by rank -/

/-- What is not below a key and not above something at it is at it too. -/
theorem eq_of_isLE_of_eq {κ : Type u} {cmp : κ → κ → Ordering} [Std.TransCmp cmp]
    {earlier later key : κ} (order : (cmp earlier later).isLE = true) (here : cmp later key = .eq)
    (notBelow : (cmp earlier key).isLT = false) : cmp earlier key = .eq := by
  have atMost : (cmp earlier key).isLE = true := by
    rw [← Std.TransCmp.congr_right here]
    exact order
  cases idx : cmp earlier key with
  | lt => simp [idx] at notBelow
  | eq => rfl
  | gt => simp [idx] at atMost

section

variable {κ : Type u} {cmp : κ → κ → Ordering} [Std.TransCmp cmp] {rank : α → κ}
  (sorted : list.Pairwise fun earlier later => (cmp (rank earlier) (rank later)).isLE = true)

include sorted

theorem pairwise_isLT (stop : κ) : list.Pairwise fun earlier later =>
    (cmp (rank later) stop).isLT = true → (cmp (rank earlier) stop).isLT = true := by
  refine sorted.imp fun {earlier later} order below => ?_
  rw [Ordering.isLT_iff_eq_lt] at below ⊢
  exact Std.TransCmp.lt_of_isLE_of_lt order below

/-- The elements of one rank, found from the first that is not below it. -/
theorem takeWhile_dropWhile_rank (stop : κ) :
    ((list.dropWhile fun elem => (cmp (rank elem) stop).isLT).takeWhile fun elem =>
        cmp (rank elem) stop == .eq) =
      list.filter fun elem => cmp (rank elem) stop == .eq := by
  apply takeWhile_dropWhile
  · intro elem _ below
    rw [Ordering.isLT_iff_eq_lt] at below
    simp [below]
  · exact pairwise_isLT sorted stop
  · refine sorted.imp fun {earlier later} order notBelow here => ?_
    rw [beq_iff_eq] at here ⊢
    exact eq_of_isLE_of_eq order here notBelow

end

/-! ## Lexicographic order -/

section

variable {cmp : α → α → Ordering} [Std.LawfulEqCmp cmp]

/-- What two lists begin with makes no difference to their order. -/
theorem compareLex_append (start left right : List α) :
    List.compareLex cmp (start ++ left) (start ++ right) = List.compareLex cmp left right := by
  induction start with
  | nil => rfl
  | cons head start ih =>
    have self : cmp head head = .eq := Std.ReflCmp.compare_self
    rw [cons_append, cons_append, List.compareLex_cons_cons, self]
    exact ih

/-- A list comes before the lists it starts. -/
theorem compareLex_of_starts {start : List α} (starts : start <+: list) :
    (List.compareLex cmp start list).isLE = true := by
  obtain ⟨rest, rfl⟩ := starts
  have same : List.compareLex cmp (start ++ []) (start ++ rest) = _ := compareLex_append start [] rest
  rw [append_nil] at same
  rw [same]
  cases rest <;> rfl

/-- What lies between a list and one that it starts, it starts too. -/
theorem prefix_of_between {start middle last : List α} (starts : start <+: last)
    (above : (List.compareLex cmp middle start).isLT = false)
    (below : List.compareLex cmp middle last = .lt) : start <+: middle := by
  induction start generalizing middle last with
  | nil => exact nil_prefix
  | cons head start ih =>
    obtain ⟨rest, rfl⟩ := starts
    cases middle with
    | nil => simp [List.compareLex] at above
    | cons other middle =>
      rw [List.compareLex_cons_cons] at above
      rw [cons_append, List.compareLex_cons_cons] at below
      cases order : cmp other head with
      | lt => simp [order] at above
      | gt => simp [order] at below
      | eq =>
        obtain rfl := Std.LawfulEqCmp.eq_of_compare order
        rw [order] at above below
        exact cons_prefix_cons.mpr ⟨rfl, ih (prefix_append start rest) above below⟩

end

end ReadySet.Library
