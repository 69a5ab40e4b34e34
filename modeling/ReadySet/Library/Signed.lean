import Mathlib

/-!
Owns signed batches over an arbitrary type: what a list of insertions and
deletions adds up to, and how it acts on a multiset one element at a time.

A batch has two readings. `weight` extends a function on elements linearly to
batches, in any commutative group; `applyAll` runs the batch on a multiset and
fails at a deletion of an absent element. `total_applyAll` ties them together:
a valid batch changes every linear total by the batch's own weight. The
difference of two queries over the contents before and after a batch is read
off from that one lemma.
-/

namespace ReadySet.Library

open Multiset

universe u v

/-- One element of a batch: inserted or deleted. -/
inductive Signed (α : Type u) where
  | positive (value : α)
  | negative (value : α)
deriving DecidableEq, Repr

namespace Signed

variable {α : Type u} {β : Type v}

def value : Signed α → α
  | positive value => value
  | negative value => value

def isPositive : Signed α → Bool
  | positive _ => true
  | negative _ => false

def sign : Signed α → ℤ
  | positive _ => 1
  | negative _ => -1

/-- The element with the sign given as a flag. -/
def ofFlag (value : α) (positive : Bool) : Signed α :=
  if positive then .positive value else .negative value

/-- The same sign on another value. -/
def map (f : α → β) : Signed α → Signed β
  | positive value => positive (f value)
  | negative value => negative (f value)

section

variable (value : α)

@[simp] theorem value_positive : (positive value).value = value := rfl

@[simp] theorem value_negative : (negative value).value = value := rfl

@[simp] theorem sign_positive : (positive value).sign = 1 := rfl

@[simp] theorem sign_negative : (negative value).sign = -1 := rfl

@[simp] theorem isPositive_positive : (positive value).isPositive = true := rfl

@[simp] theorem isPositive_negative : (negative value).isPositive = false := rfl

end

@[simp] theorem value_map (f : α → β) (elem : Signed α) : (elem.map f).value = f elem.value := by
  cases elem <;> rfl

@[simp] theorem value_ofFlag (value : α) (flag : Bool) : (ofFlag value flag).value = value := by
  cases flag <;> rfl

theorem sign_ofFlag (value : α) (flag : Bool) :
    (ofFlag value flag).sign = if flag then 1 else -1 := by
  cases flag <;> rfl

@[simp] theorem sign_ofFlag_isPositive (value : β) (elem : Signed α) :
    (ofFlag value elem.isPositive).sign = elem.sign := by
  cases elem <;> rfl

theorem sign_eq_ite (elem : Signed α) : elem.sign = if elem.isPositive then 1 else -1 := by
  cases elem <;> rfl

end Signed

/-! ## Linear extension -/

section

variable {α : Type u} {β : Type v} {G : Type*} [AddCommGroup G]

/-- The linear extension of `f` to batches. -/
def weight (f : α → G) (batch : List (Signed α)) : G :=
  (batch.map fun element => element.sign • f element.value).sum

section

variable (f : α → G)

@[simp] theorem weight_nil : weight f [] = 0 := rfl

@[simp] theorem weight_cons (elem : Signed α) (batch : List (Signed α)) :
    weight f (elem :: batch) = elem.sign • f elem.value + weight f batch := by
  simp [weight]

@[simp] theorem weight_append (left right : List (Signed α)) :
    weight f (left ++ right) = weight f left + weight f right := by
  simp [weight]

theorem weight_flatten (batches : List (List (Signed α))) :
    weight f batches.flatten = (batches.map (weight f)).sum := by
  induction batches with
  | nil => rfl
  | cons batch batches ih => simp [ih]

theorem weight_flatMap (expand : β → List (Signed α)) (sources : List β) :
    weight f (sources.flatMap expand) = (sources.map fun source => weight f (expand source)).sum := by
  induction sources with
  | nil => rfl
  | cons source sources ih => simp [ih]

end

theorem weight_congr {f g : α → G} (batch : List (Signed α))
    (same : ∀ elem ∈ batch, f elem.value = g elem.value) : weight f batch = weight g batch := by
  unfold weight
  rw [List.map_congr_left]
  intro elem mem
  rw [same elem mem]

/-- A weight that vanishes outside `keep` only sees the kept elements. -/
theorem weight_filter (f : α → G) (keep : α → Bool) (batch : List (Signed α)) :
    weight f (batch.filter fun elem => keep elem.value) =
      weight (fun value => if keep value then f value else 0) batch := by
  induction batch with
  | nil => rfl
  | cons elem batch ih =>
    by_cases kept : keep elem.value <;> simp [kept, ih]

/-- Elements all of one sign weigh as that sign times their plain sum. -/
theorem weight_ofFlag (f : α → G) (flag : Bool) (values : List α) :
    weight f (values.map fun value => Signed.ofFlag value flag) =
      (if flag then 1 else -1 : ℤ) • (values.map f).sum := by
  induction values with
  | nil => simp
  | cons value values ih =>
    simp [ih, Signed.sign_ofFlag]

end

/-! ## Multisets as integer-valued counts -/

theorem sum_map_filter {α G : Type*} [AddCommMonoid G] (contents : Multiset α)
    (keep : α → Prop) [DecidablePred keep] (f : α → G) :
    ((contents.filter keep).map f).sum =
      (contents.map fun value => if keep value then f value else 0).sum := by
  induction contents using Multiset.induction_on with
  | empty => simp
  | cons value contents ih =>
    by_cases kept : keep value <;> simp [kept, ih]

theorem coe_flatMap {α β : Type*} (list : List β) (f : β → List α) :
    ((list.flatMap f : List α) : Multiset α) = (list.map fun value => (f value : Multiset α)).sum := by
  rw [← coe_bind]
  exact sum_coe _

/-- Sums of smaller parts are equal only part by part. -/
theorem sum_eq_sum_iff {ι α : Type*} {list : List ι} {f g : ι → Multiset α}
    (below : ∀ elem ∈ list, f elem ≤ g elem) :
    (list.map f).sum = (list.map g).sum ↔ ∀ elem ∈ list, f elem = g elem := by
  refine ⟨fun same elem mem => ?_, fun same => congrArg List.sum (List.map_congr_left same)⟩
  by_contra ne
  exact (List.sum_lt_sum f g below ⟨elem, mem, lt_of_le_of_ne (below elem mem) ne⟩).ne same

section

variable {α : Type u} {β : Type v} [DecidableEq α]

/-- The unit count of one element. -/
def unit (value : α) : α → ℤ := Pi.single value 1

/-- The counts of a batch: insertions minus deletions of each element. -/
def net (batch : List (Signed α)) : α → ℤ := weight unit batch

def counts (contents : Multiset α) : α → ℤ := fun value => (contents.count value : ℤ)

theorem unit_apply (value other : α) : unit value other = if other = value then 1 else 0 := by
  simp [unit, Pi.single_apply]

@[simp] theorem counts_zero : counts (0 : Multiset α) = 0 := by
  funext value
  simp [counts]

theorem counts_cons (value : α) (contents : Multiset α) :
    counts (value ::ₘ contents) = unit value + counts contents := by
  funext other
  simp only [counts, count_cons, Pi.add_apply, unit_apply]
  split_ifs <;> push_cast <;> ring

@[simp] theorem counts_singleton (value : α) : counts ({value} : Multiset α) = unit value := by
  rw [← cons_zero, counts_cons, counts_zero, add_zero]

@[simp] theorem counts_add (left right : Multiset α) :
    counts (left + right) = counts left + counts right := by
  funext value
  simp [counts]

theorem counts_injective : Function.Injective (counts : Multiset α → α → ℤ) := by
  intro left right same
  ext value
  have here := congrFun same value
  simp only [counts, Nat.cast_inj] at here
  exact here

theorem counts_eq_sum (contents : Multiset α) : counts contents = (contents.map unit).sum := by
  induction contents using Multiset.induction_on with
  | empty => simp
  | cons value contents ih =>
    rw [counts_cons, map_cons, sum_cons, ih]

theorem counts_bind (contents : Multiset β) (expand : β → Multiset α) :
    counts (contents.bind expand) = (contents.map fun value => counts (expand value)).sum := by
  induction contents using Multiset.induction_on with
  | empty => simp
  | cons value contents ih => simp [ih]

theorem counts_map (contents : Multiset β) (project : β → α) :
    counts (contents.map project) = (contents.map fun value => unit (project value)).sum := by
  rw [counts_eq_sum, map_map]
  rfl

/-- Elements all of one sign, as counts. -/
theorem net_ofFlag (flag : Bool) (values : List α) :
    net (values.map fun value => Signed.ofFlag value flag) =
      (if flag then 1 else -1 : ℤ) • counts (values : Multiset α) := by
  rw [net, weight_ofFlag, counts_eq_sum, map_coe, sum_coe]

end

/-! ## Running a batch -/

section

variable {α : Type u} [DecidableEq α]

/-- One element of a batch on a multiset; deleting an absent element fails. -/
def applyOne (contents : Multiset α) : Signed α → Option (Multiset α)
  | .positive value => some (value ::ₘ contents)
  | .negative value => if value ∈ contents then some (contents.erase value) else none

/-- A batch on a multiset, element by element in order. -/
def applyAll : Multiset α → List (Signed α) → Option (Multiset α)
  | contents, [] => some contents
  | contents, element :: batch => (applyOne contents element).bind fun next => applyAll next batch

@[simp] theorem applyAll_nil (contents : Multiset α) : applyAll contents [] = some contents := rfl

variable {batch : List (Signed α)} {contents after : Multiset α} {elem : Signed α}

theorem applyAll_cons_eq_some :
    applyAll contents (elem :: batch) = some after ↔
      ∃ next, applyOne contents elem = some next ∧ applyAll next batch = some after := by
  simp [applyAll, Option.bind_eq_some_iff]

variable {value : α} {keep : α → Prop}

theorem applyOne_negative_eq_some :
    applyOne contents (.negative value) = some after ↔
      value ∈ contents ∧ after = contents.erase value := by
  simp only [applyOne]
  split_ifs with mem
  · simp [mem, eq_comm]
  · simp [mem]

theorem applyAll_negative (mem : value ∈ contents) :
    applyAll contents (.negative value :: batch) = applyAll (contents.erase value) batch := by
  rw [applyAll, applyOne, if_pos mem, Option.bind_some]

/-- A batch that applies is applied one insertion or valid deletion after the other. -/
@[elab_as_elim]
theorem applyAll_induction {motive : Multiset α → List (Signed α) → Prop}
    (applied : applyAll contents batch = some after) (nil : motive after [])
    (positive : ∀ contents value batch, motive (value ::ₘ contents) batch →
      motive contents (.positive value :: batch))
    (negative : ∀ contents value batch, value ∈ contents → motive (contents.erase value) batch →
      motive contents (.negative value :: batch)) : motive contents batch := by
  induction batch generalizing contents with
  | nil => exact Option.some.inj applied ▸ nil
  | cons elem batch ih =>
    obtain ⟨next, one, rest⟩ := applyAll_cons_eq_some.mp applied
    cases elem with
    | positive value =>
      obtain rfl : value ::ₘ contents = next := Option.some.inj one
      exact positive contents value batch (ih rest)
    | negative value =>
      obtain ⟨mem, rfl⟩ := applyOne_negative_eq_some.mp one
      exact negative contents value batch mem (ih rest)

theorem applyAll_append {first second : List (Signed α)} :
    applyAll contents (first ++ second) =
      (applyAll contents first).bind fun next => applyAll next second := by
  induction first generalizing contents with
  | nil => rfl
  | cons elem first ih =>
    simp only [List.cons_append, applyAll]
    cases applyOne contents elem with
    | none => rfl
    | some next => exact ih

/-- What a batch leaves was there before or is inserted by it. -/
theorem mem_of_applyAll (applied : applyAll contents batch = some after) (mem : value ∈ after) :
    value ∈ contents ∨ Signed.positive value ∈ batch := by
  refine applyAll_induction applied (.inl mem) ?_ ?_
  · rintro contents inserted batch (here | later)
    · rcases mem_cons.mp here with rfl | old
      · exact .inr List.mem_cons_self
      · exact .inl old
    · exact .inr (List.mem_cons_of_mem _ later)
  · rintro contents removed batch _ (here | later)
    · exact .inl (mem_of_mem_erase here)
    · exact .inr (List.mem_cons_of_mem _ later)

/-- A batch changes the count of a value by its insertions and deletions. -/
theorem count_applyAll (applied : applyAll contents batch = some after) (value : α) :
    after.count value + batch.count (.negative value) =
      contents.count value + batch.count (.positive value) := by
  refine applyAll_induction applied rfl ?_ ?_
  · intro contents inserted batch later
    by_cases same : inserted = value
    · subst same
      simp at later ⊢
      omega
    · simp [same, Ne.symm same] at later ⊢
      omega
  · intro contents removed batch mem later
    by_cases same : removed = value
    · subst same
      have positive := count_pos.mpr mem
      simp at later ⊢
      omega
    · rw [count_erase_of_ne (Ne.symm same)] at later
      simp [same] at later ⊢
      omega

/-- **A valid batch changes a linear total by its weight.** -/
theorem total_applyAll {G : Type*} [AddCommGroup G] (f : α → G)
    (applied : applyAll contents batch = some after) :
    (after.map f).sum = (contents.map f).sum + weight f batch := by
  refine applyAll_induction applied (by simp) ?_ ?_
  · intro contents value batch ih
    rw [ih, map_cons, sum_cons, weight_cons]
    simp [add_assoc, add_left_comm]
  · intro contents value batch mem ih
    have split := congrArg (fun all => (map f all).sum) (cons_erase mem)
    rw [ih, ← split, weight_cons, map_cons, sum_cons, Signed.value_negative, Signed.sign_negative,
      neg_smul, one_smul]
    abel

/-- A batch does not touch what lies beside the contents it runs on. -/
theorem applyAll_add (beside : Multiset α) (applied : applyAll contents batch = some after) :
    applyAll (beside + contents) batch = some (beside + after) := by
  refine applyAll_induction applied rfl ?_ ?_
  · intro contents value batch ih
    rw [add_cons] at ih
    exact ih
  · intro contents value batch mem ih
    rw [← erase_add_right_pos _ mem] at ih
    exact (applyAll_negative (mem_add.mpr (.inr mem))).trans ih

theorem applyAll_map_positive (contents : Multiset α) (values : List α) :
    applyAll contents (values.map .positive) = some (contents + (values : Multiset α)) := by
  induction values generalizing contents with
  | nil => simp
  | cons value values ih =>
    rw [List.map_cons, applyAll, applyOne, Option.bind_some, ih, ← cons_coe, cons_add, add_cons]

theorem applyAll_map_negative (contents : Multiset α) (values : List α) :
    applyAll (contents + (values : Multiset α)) (values.map .negative) = some contents := by
  induction values with
  | nil => simp
  | cons value values ih =>
    refine applyAll_cons_eq_some.mpr ⟨contents + (values : Multiset α), ?_, ih⟩
    rw [applyOne_negative_eq_some, ← cons_coe, add_cons]
    exact ⟨mem_cons_self value _, (erase_cons_head value _).symm⟩

/-- What a batch does to the images of the elements. -/
theorem applyAll_map {β : Type*} [DecidableEq β] (f : α → β)
    (applied : applyAll contents batch = some after) :
    applyAll (contents.map f) (batch.map (Signed.map f)) = some (after.map f) := by
  refine applyAll_induction applied rfl ?_ ?_
  · intro contents value batch ih
    rw [map_cons] at ih
    exact ih
  · intro contents value batch mem ih
    rw [map_erase_of_mem f contents mem] at ih
    exact (applyAll_negative (mem_map_of_mem f mem)).trans ih

theorem filter_erase_of_pos [DecidablePred keep] (kept : keep value) (contents : Multiset α) :
    (contents.erase value).filter keep = (contents.filter keep).erase value := by
  by_cases present : value ∈ contents
  · conv_rhs => rw [← cons_erase present, filter_cons_of_pos _ kept, erase_cons_head]
  · rw [erase_of_notMem present, erase_of_notMem]
    exact fun mem => present (mem_of_mem_filter mem)

theorem filter_erase_of_neg [DecidablePred keep] (dropped : ¬ keep value) (contents : Multiset α) :
    (contents.erase value).filter keep = contents.filter keep := by
  by_cases mem : value ∈ contents
  · conv_rhs => rw [← cons_erase mem, filter_cons_of_neg _ dropped]
  · rw [erase_of_notMem mem]

/-- A valid batch restricts to the elements of one kind. -/
theorem applyAll_filter (keep : α → Prop) [DecidablePred keep]
    (applied : applyAll contents batch = some after) :
    applyAll (contents.filter keep) (batch.filter fun elem => keep elem.value) =
      some (after.filter keep) := by
  refine applyAll_induction applied rfl ?_ ?_
  · intro contents value batch ih
    by_cases kept : keep value
    · rw [filter_cons_of_pos _ kept] at ih
      rw [List.filter_cons_of_pos (by simp [kept])]
      exact ih
    · rw [filter_cons_of_neg _ kept] at ih
      rw [List.filter_cons_of_neg (by simp [kept])]
      exact ih
  · intro contents value batch mem ih
    by_cases kept : keep value
    · rw [filter_erase_of_pos kept] at ih
      rw [List.filter_cons_of_pos (by simp [kept])]
      exact (applyAll_negative (mem_filter.mpr ⟨mem, kept⟩)).trans ih
    · rw [filter_erase_of_neg kept] at ih
      rw [List.filter_cons_of_neg (by simp [kept])]
      exact ih

end

/-! ## Listing contents -/

section

variable {α : Type*} [LinearOrder α]

/-- The elements of a multiset in ascending order. -/
def ascending (contents : Multiset α) : List α :=
  Quot.liftOn contents (fun list => list.insertionSort (· ≤ ·)) fun left right perm =>
    have sorted (list : List α) : (list.insertionSort (· ≤ ·)).Pairwise (· ≤ ·) :=
      List.pairwise_insertionSort _ list
    List.Perm.eq_of_pairwise (fun _ _ _ _ => le_antisymm) (sorted left) (sorted right)
      ((List.perm_insertionSort _ left).trans (perm.trans (List.perm_insertionSort _ right).symm))

@[simp] theorem coe_ascending (contents : Multiset α) :
    (ascending contents : Multiset α) = contents := by
  induction contents using Quot.inductionOn with
  | h list => exact coe_eq_coe.mpr (List.perm_insertionSort _ list)

@[simp] theorem mem_ascending {contents : Multiset α} {elem : α} :
    elem ∈ ascending contents ↔ elem ∈ contents := by
  rw [← mem_coe, coe_ascending]

end

end ReadySet.Library
