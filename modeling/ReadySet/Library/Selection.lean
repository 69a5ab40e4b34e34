import Mathlib

/-!
Owns the selection of greatest elements: what it means that a multiset holds
the `k` greatest elements of another, for a total preorder in which distinct
elements may tie, and when two ways of computing such a selection succeed.

`selected_iff` is for taking the `k` greatest of a sub-multiset that has at
least `k` elements; `backfilled_iff` for topping a short sub-multiset up from
the sorted whole.
-/

namespace ReadySet.Library

open Multiset

universe u

variable {α : Type u} [DecidableEq α]

/-- **`chosen` are `k` greatest elements of `all`** (or all of them, if there
are fewer): no omitted element is above a chosen one. -/
structure IsTop (le : α → α → Prop) (k : Nat) (chosen all : Multiset α) : Prop where
  sub : chosen ≤ all
  card : chosen.card = min k all.card
  greatest : ∀ omitted ∈ all - chosen, ∀ kept ∈ chosen, le omitted kept

section

variable {le : α → α → Prop} {k : Nat} {chosen dropped tracked all : Multiset α}
  [DecidableRel le] [IsTrans α le]

/-- The greatest elements of a sub-multiset are greatest in the whole exactly
when every element outside has `k` elements of the sub-multiset not below it. -/
theorem selected_iff (parts : chosen + dropped = tracked) (size : chosen.card = k)
    (below : ∀ low ∈ dropped, ∀ high ∈ chosen, le low high) (sub : tracked ≤ all) :
    IsTop le k chosen all ↔ ∀ outside ∈ all - tracked, k ≤ (tracked.filter (le outside)).card := by
  have chosen_sub : chosen ≤ tracked := parts ▸ le_add_right chosen dropped
  have rest : all - chosen = (all - tracked) + dropped := by
    have whole : all = (all - tracked) + dropped + chosen := by
      rw [add_assoc, add_comm dropped, parts, tsub_add_cancel_of_le sub]
    conv_lhs => rw [whole]
    rw [Multiset.add_sub_cancel_right]
  constructor
  · intro top outside mem
    have omitted : outside ∈ all - chosen := by
      rw [rest]
      exact mem_add.mpr (.inl mem)
    have all_above : chosen ≤ tracked.filter (le outside) := by
      rw [le_filter]
      exact ⟨chosen_sub, fun kept present => top.greatest outside omitted kept present⟩
    exact size ▸ card_le_card all_above
  · intro enough
    have card_all : k ≤ all.card := size ▸ card_le_card (chosen_sub.trans sub)
    refine ⟨chosen_sub.trans sub, by omega, ?_⟩
    intro omitted mem kept present
    rw [rest] at mem
    rcases mem_add.mp mem with outside | low
    · -- a chosen element below `omitted` would leave too few above it
      by_contra above
      have no_dropped : dropped.filter (le omitted) = 0 := by
        refine filter_eq_nil.mpr fun low present_low reaches => above ?_
        exact IsTrans.trans _ _ _ reaches (below low present_low kept present)
      have fewer : (chosen.filter (le omitted)).card < chosen.card := by
        refine card_lt_card (lt_of_le_of_ne (filter_le _ _) fun same => above ?_)
        exact filter_eq_self.mp same kept present
      have counted := enough omitted outside
      rw [← parts, filter_add, no_dropped, add_zero] at counted
      omega
    · exact below omitted low kept present

omit [DecidableEq α] in
/-- In a list sorted downwards, nothing that follows an element below `pivot`
reaches `pivot`. -/
theorem filter_le_eq_nil_of_pairwise {before after : List α} {pivot high : α}
    (ordered : (before ++ after).Pairwise fun left right => le right left)
    (mem : high ∈ before) (beyond : ¬ le pivot high) : after.filter (le pivot) = [] := by
  refine List.filter_eq_nil_iff.mpr fun low present reaches => beyond ?_
  have above := (List.pairwise_append.mp ordered).2.2 high mem low present
  exact IsTrans.trans _ _ _ (by simpa using reaches) above

variable [Std.Total le]

/-- Elements of the sorted whole at positions `tracked.card` to `k` top a short
sub-multiset up to a selection exactly when nothing outside the sub-multiset
was above one of its elements and no element is taken twice. -/
theorem backfilled_iff {sorted : List α} (contents : (sorted : Multiset α) = all)
    (ordered : sorted.Pairwise fun left right => le right left) (sub : tracked ≤ all)
    (short : tracked.card < k) :
    IsTop le k (tracked + ((sorted.drop tracked.card).take (k - tracked.card) : List α)) all ↔
      (∀ outside ∈ all - tracked, ∀ inside ∈ tracked, le outside inside) ∧
        tracked + ((sorted.drop tracked.card).take (k - tracked.card) : List α) ≤ all := by
  set held := tracked.card
  set first := sorted.take held
  set window := (sorted.drop held).take (k - held)
  set rest := (sorted.drop held).drop (k - held) with restDef
  have split : sorted = (first ++ window) ++ rest := by
    rw [List.append_assoc, List.take_append_drop, List.take_append_drop]
  have fits : held ≤ all.card := card_le_card sub
  have sortedLength : sorted.length = all.card := by rw [← contents, coe_card]
  have firstLength : first.length = held := by
    rw [List.length_take]
    omega
  have windowLength : window.length = min (k - held) (all.card - held) := by
    rw [List.length_take, List.length_drop, sortedLength]
  have reaching : ∀ pivot : α, (all.filter (le pivot)).card =
      (first.filter (le pivot)).length + (window.filter (le pivot)).length +
        (rest.filter (le pivot)).length := by
    intro pivot
    rw [← contents, split, filter_coe, coe_card]
    simp only [List.filter_append, List.length_append]
  have windowReaching : ∀ pivot : α,
      ((window : Multiset α).filter (le pivot)).card = (window.filter (le pivot)).length := by
    intro pivot
    rw [filter_coe, coe_card]
  rw [split] at ordered
  constructor
  · intro top
    refine ⟨?_, top.sub⟩
    intro outside mem inside present
    by_contra above
    have taken : outside ∈ window := by
      by_contra notTaken
      refine above (top.greatest outside ?_ inside (mem_add.mpr (.inl present)))
      rw [← count_pos, count_sub] at mem ⊢
      have absent : (window : Multiset α).count outside = 0 :=
        count_eq_zero.mpr (by simpa using notTaken)
      rw [count_add]
      omega
    have firstReaches : first.filter (le outside) = first := by
      refine List.filter_eq_self.mpr fun high memberHigh => ?_
      have before := (List.pairwise_append.mp (List.pairwise_append.mp ordered).1).2.2
      simpa using before high memberHigh outside taken
    have fewer : (tracked.filter (le outside)).card < held := by
      refine card_lt_card (lt_of_le_of_ne (filter_le _ _) fun same => above ?_)
      exact filter_eq_self.mp same inside present
    -- so some omitted element reaches `outside`, above a chosen one
    have parts : all = tracked + (window : Multiset α) + (all - (tracked + (window : Multiset α))) :=
      (add_tsub_cancel_of_le top.sub).symm
    have counted := reaching outside
    rw [parts, filter_add, filter_add, card_add, card_add, windowReaching, firstReaches] at counted
    have someOmitted : 0 < ((all - (tracked + (window : Multiset α))).filter
        (le outside)).card := by omega
    obtain ⟨omitted, memberOmitted⟩ := card_pos_iff_exists_mem.mp someOmitted
    obtain ⟨isOmitted, reaches⟩ := mem_filter.mp memberOmitted
    have low := top.greatest omitted isOmitted inside (mem_add.mpr (.inl present))
    exact above (IsTrans.trans _ _ _ reaches low)
  · rintro ⟨separated, fitsIn⟩
    refine ⟨fitsIn, ?_, ?_⟩
    · rw [card_add, coe_card]
      omega
    intro omitted mem kept present
    have outside : omitted ∈ all - tracked := by
      refine mem_of_le ?_ mem
      exact tsub_le_tsub_left (le_add_right _ _) _
    rcases mem_add.mp present with inside | taken
    · exact separated omitted outside kept inside
    · by_contra above
      have takenList : kept ∈ first ++ window := List.mem_append.mpr (.inr (by simpa using taken))
      have noRest : rest.filter (le omitted) = [] :=
        filter_le_eq_nil_of_pairwise ordered takenList above
      have allTracked : tracked.filter (le omitted) = tracked :=
        filter_eq_self.mpr fun inside memberInside =>
          separated omitted outside inside memberInside
      have together : tracked + (window : Multiset α) + {omitted} ≤ all := by
        rw [← add_tsub_cancel_of_le fitsIn]
        exact add_le_add_right (singleton_le.mpr mem) _
      have counted := card_le_card (filter_le_filter (le omitted) together)
      have reflexive : le omitted omitted := (Std.Total.total omitted omitted).elim id id
      rw [filter_add, filter_add, card_add, card_add,
        allTracked, windowReaching, reaching, noRest, filter_singleton,
        if_pos reflexive] at counted
      have firstBound : (first.filter (le omitted)).length ≤ first.length := List.length_filter_le _ _
      simp only [List.length_nil, card_singleton] at counted
      omega

end

end ReadySet.Library
