import Mathlib

/-!
Owns an ordered map as the list of its entries in key order, searched with a
comparison from the front as a B-tree node is.

The operations make sense for any comparison. They are those of a map when the
comparison orders the keys in play (`OrderedOn`), which is asked of a set of
keys only, so that a comparison that is no order on all keys can still be used
on the keys it orders. `BTreeMap` bundles the entries with their order for a
comparison that is a linear order.
-/

namespace ReadySet.Library

open List

universe u v

variable {κ : Type u} {β : Type v}

/-- The comparison is a strict order on a set of keys, and separates them. -/
structure OrderedOn (cmp : κ → κ → Ordering) (keys : κ → Prop) : Prop where
  refl : ∀ key, keys key → cmp key key = .eq
  swap : ∀ left right, keys left → keys right → cmp right left = (cmp left right).swap
  trans : ∀ left middle right, keys left → keys middle → keys right →
    cmp left middle = .lt → cmp middle right = .lt → cmp left right = .lt
  separates : ∀ left right, keys left → keys right → cmp left right = .eq → left = right

theorem OrderedOn.of_lawful {cmp : κ → κ → Ordering} [Std.TransCmp cmp] [Std.LawfulEqCmp cmp]
    {keys : κ → Prop} : OrderedOn cmp keys where
  refl _ _ := Std.ReflCmp.compare_self
  swap _ _ _ _ := Std.OrientedCmp.eq_swap
  trans _ _ _ _ _ _ := Std.TransCmp.lt_trans
  separates _ _ _ _ := Std.LawfulEqCmp.eq_of_compare

namespace SortedMap

variable (cmp : κ → κ → Ordering)

def find? (key : κ) : List (κ × β) → Option β
  | [] => none
  | (head, value) :: rest =>
    match cmp key head with
    | .lt => none
    | .eq => some value
    | .gt => find? key rest

/-- The map with the key's value set. -/
def insert (key : κ) (value : β) : List (κ × β) → List (κ × β)
  | [] => [(key, value)]
  | (head, old) :: rest =>
    match cmp key head with
    | .lt => (key, value) :: (head, old) :: rest
    | .eq => (head, value) :: rest
    | .gt => (head, old) :: insert key value rest

/-- The map without the key. -/
def erase (key : κ) : List (κ × β) → List (κ × β)
  | [] => []
  | (head, old) :: rest =>
    match cmp key head with
    | .lt => (head, old) :: rest
    | .eq => rest
    | .gt => (head, old) :: erase key rest

/-- The entries are in strictly increasing key order. -/
def Sorted (entries : List (κ × β)) : Prop :=
  entries.Pairwise fun left right => cmp left.1 right.1 = .lt

variable {cmp} {keys : κ → Prop} {entries : List (κ × β)} {key : κ}

theorem erase_sorted (sorted : Sorted cmp entries) (key : κ) :
    Sorted cmp (erase cmp key entries) := by
  suffices sublist : (erase cmp key entries).Sublist entries from Pairwise.sublist sublist sorted
  clear sorted
  induction entries with
  | nil => exact Sublist.slnil
  | cons head rest ih =>
    obtain ⟨head, old⟩ := head
    rw [erase]
    cases cmp key head with
    | lt => exact Sublist.refl _
    | eq => exact sublist_cons_self _ _
    | gt => exact ih.cons_cons _

/-- The entries around a key: those below it, its own if it has one, and those above it. -/
structure Around (cmp : κ → κ → Ordering) (key : κ) (entries below : List (κ × β))
    (here : Option β) (above : List (κ × β)) : Prop where
  entries_eq : entries = below ++ ((here.map fun value => (key, value)).toList ++ above)
  below_lt : ∀ entry ∈ below, cmp entry.1 key = .lt
  lt_above : ∀ entry ∈ above, cmp key entry.1 = .lt
  find?_eq : find? cmp key entries = here
  insert_eq : ∀ value, insert cmp key value entries = below ++ (key, value) :: above
  erase_eq : erase cmp key entries = below ++ above

section

variable (ordered : OrderedOn cmp keys) (isKey : keys key)
include ordered isKey

theorem Around.ne {below above : List (κ × β)} {here : Option β}
    (around : Around cmp key entries below here above) :
    ∀ entry ∈ below ++ above, entry.1 ≠ key := by
  intro entry mem same
  rcases mem_append.mp mem with isBelow | isAbove
  · have less := around.below_lt entry isBelow
    rw [same, ordered.refl key isKey] at less
    contradiction
  · have less := around.lt_above entry isAbove
    rw [same, ordered.refl key isKey] at less
    contradiction

variable (inKeys : ∀ entry ∈ entries, keys entry.1) (sorted : Sorted cmp entries)
include inKeys sorted

/-- A sorted list splits at every key. -/
theorem exists_around : ∃ below here above, Around cmp key entries below here above := by
  induction entries with
  | nil => exact ⟨[], none, [], rfl, by simp, by simp, rfl, fun _ => rfl, rfl⟩
  | cons head rest ih =>
    obtain ⟨head, old⟩ := head
    obtain ⟨isHead, restKeys⟩ := forall_mem_cons.mp inKeys
    obtain ⟨first, restSorted⟩ := pairwise_cons.mp sorted
    cases order : cmp key head with
    | lt =>
      refine ⟨[], none, (head, old) :: rest, rfl, by simp, forall_mem_cons.mpr ⟨order, ?_⟩,
        by simp [find?, order], by simp [insert, order], by simp [erase, order]⟩
      exact fun entry later =>
        ordered.trans key head entry.1 isKey isHead (restKeys entry later) order (first entry later)
    | eq =>
      obtain rfl := ordered.separates key head isKey isHead order
      exact ⟨[], some old, rest, rfl, by simp, first, by simp [find?, order],
        by simp [insert, order], by simp [erase, order]⟩
    | gt =>
      obtain ⟨below, here, above, around⟩ := ih restKeys restSorted
      have headBelow : cmp head key = .lt := by
        rw [ordered.swap key head isKey isHead, order]
        rfl
      refine ⟨(head, old) :: below, here, above, ?_,
        forall_mem_cons.mpr ⟨headBelow, around.below_lt⟩, around.lt_above,
        by simp [find?, order, around.find?_eq], by simp [insert, order, around.insert_eq],
        by simp [erase, order, around.erase_eq]⟩
      rw [around.entries_eq]
      rfl

variable {value : β} {entry : κ × β}

theorem mem_erase : entry ∈ erase cmp key entries ↔ entry.1 ≠ key ∧ entry ∈ entries := by
  obtain ⟨below, here, above, around⟩ := exists_around ordered isKey inKeys sorted
  rw [around.erase_eq, around.entries_eq]
  constructor
  · intro mem
    refine ⟨around.ne ordered isKey entry mem, ?_⟩
    exact (sublist_append_right _ _).append_left below |>.subset mem
  · rintro ⟨ne, mem⟩
    cases here with
    | none => exact mem
    | some value =>
      rcases mem_cons.mp (perm_middle.mem_iff.mp mem) with rfl | other
      · exact absurd rfl ne
      · exact other

theorem find?_eq_some : find? cmp key entries = some value ↔ (key, value) ∈ entries := by
  obtain ⟨below, here, above, around⟩ := exists_around ordered isKey inKeys sorted
  rw [around.find?_eq, around.entries_eq]
  have notOther : (key, value) ∉ below ++ above := fun mem =>
    around.ne ordered isKey _ mem rfl
  cases here with
  | none => exact iff_of_false (by simp) notOther
  | some own =>
    change _ ↔ (key, value) ∈ below ++ (key, own) :: above
    rw [perm_middle.mem_iff, mem_cons, or_iff_left notOther]
    simp [eq_comm]

theorem find?_eq_none : find? cmp key entries = none ↔ ∀ entry ∈ entries, entry.1 ≠ key := by
  rw [Option.eq_none_iff_forall_ne_some]
  constructor
  · rintro absent ⟨_, value⟩ mem rfl
    exact absent value ((find?_eq_some ordered isKey inKeys sorted).mpr mem)
  · intro absent value found
    exact absent _ ((find?_eq_some ordered isKey inKeys sorted).mp found) rfl

theorem insert_perm_erase (value : β) :
    (insert cmp key value entries).Perm ((key, value) :: erase cmp key entries) := by
  obtain ⟨below, here, above, around⟩ := exists_around ordered isKey inKeys sorted
  rw [around.insert_eq, around.erase_eq]
  exact perm_middle

theorem mem_insert : entry ∈ insert cmp key value entries ↔
    entry = (key, value) ∨ (entry.1 ≠ key ∧ entry ∈ entries) := by
  rw [(insert_perm_erase ordered isKey inKeys sorted value).mem_iff, mem_cons,
    mem_erase ordered isKey inKeys sorted]

theorem insert_sorted (value : β) : Sorted cmp (insert cmp key value entries) := by
  obtain ⟨below, here, above, around⟩ := exists_around ordered isKey inKeys sorted
  rw [around.insert_eq]
  rw [around.entries_eq] at sorted
  obtain ⟨belowSorted, restSorted, less⟩ := pairwise_append.mp sorted
  refine pairwise_append.mpr ⟨belowSorted, pairwise_cons.mpr
    ⟨around.lt_above, (pairwise_append.mp restSorted).2.1⟩, fun entry isBelow => ?_⟩
  exact forall_mem_cons.mpr ⟨around.below_lt entry isBelow, fun other isAbove =>
    less entry isBelow other (mem_append_right _ isAbove)⟩

theorem erase_eq_self (fresh : ∀ entry ∈ entries, entry.1 ≠ key) :
    erase cmp key entries = entries := by
  obtain ⟨below, here, above, around⟩ := exists_around ordered isKey inKeys sorted
  have absent := (find?_eq_none ordered isKey inKeys sorted).mpr fresh
  rw [around.find?_eq] at absent
  rw [around.erase_eq, around.entries_eq, absent]
  rfl

/-- A new key adds one entry. -/
theorem insert_perm (value : β) (fresh : ∀ entry ∈ entries, entry.1 ≠ key) :
    (insert cmp key value entries).Perm ((key, value) :: entries) := by
  have added := insert_perm_erase ordered isKey inKeys sorted value
  rwa [erase_eq_self ordered isKey inKeys sorted fresh] at added

/-- Removing a key takes its entry away. -/
theorem erase_perm (mem : (key, value) ∈ entries) :
    entries.Perm ((key, value) :: erase cmp key entries) := by
  obtain ⟨below, here, above, around⟩ := exists_around ordered isKey inKeys sorted
  have found := (find?_eq_some ordered isKey inKeys sorted).mpr mem
  rw [around.find?_eq] at found
  rw [around.erase_eq, around.entries_eq, found]
  exact perm_middle

end

variable (cmp) in
/-- The entries put into a map one after another. -/
def resort (entries : List (κ × β)) : List (κ × β) :=
  entries.foldl (fun sorted entry => insert cmp entry.1 entry.2 sorted) []

/-- Entries of different keys come out of a map as they went in. -/
theorem resort_sorted_perm (ordered : OrderedOn cmp keys) (inKeys : ∀ entry ∈ entries, keys entry.1)
    (nodup : (entries.map Prod.fst).Nodup) :
    Sorted cmp (resort cmp entries) ∧ (resort cmp entries).Perm entries := by
  induction entries using reverseRecOn with
  | nil => exact ⟨Pairwise.nil, Perm.nil⟩
  | append_singleton done entry ih =>
    rw [map_append, map_singleton, ← concat_eq_append, nodup_concat] at nodup
    obtain ⟨fresh, distinctDone⟩ := nodup
    have isKey : keys entry.1 := inKeys entry (by simp)
    obtain ⟨sorted, perm⟩ := ih (fun other mem => inKeys other (by simp [mem])) distinctDone
    have doneKeys : ∀ other ∈ resort cmp done, keys other.1 := fun other mem =>
      inKeys other (mem_append_left _ (perm.subset mem))
    have put : resort cmp (done ++ [entry]) = insert cmp entry.1 entry.2 (resort cmp done) :=
      foldl_concat ..
    rw [put]
    refine ⟨insert_sorted ordered isKey doneKeys sorted _, (insert_perm ordered isKey doneKeys
      sorted _ fun other mem same => fresh ?_).trans ?_⟩
    · exact same ▸ mem_map_of_mem (perm.subset mem)
    · exact (perm.cons entry).trans (perm_append_singleton entry done).symm

end SortedMap

/-! ## Maps over a linear order -/

/-- The entries of a map in key order. -/
structure BTreeMap (κ : Type u) (β : Type v) (cmp : κ → κ → Ordering) where
  entries : List (κ × β)
  sorted : SortedMap.Sorted cmp entries

namespace BTreeMap

variable {cmp : κ → κ → Ordering}

instance : EmptyCollection (BTreeMap κ β cmp) := ⟨⟨[], List.Pairwise.nil⟩⟩

def get? (map : BTreeMap κ β cmp) (key : κ) : Option β := SortedMap.find? cmp key map.entries

/-- The entries whose keys pass a test. -/
def retain (map : BTreeMap κ β cmp) (keep : κ → Bool) : BTreeMap κ β cmp where
  entries := map.entries.filter fun entry => keep entry.1
  sorted := map.sorted.filter _

def remove (map : BTreeMap κ β cmp) (key : κ) : BTreeMap κ β cmp where
  entries := SortedMap.erase cmp key map.entries
  sorted := SortedMap.erase_sorted map.sorted key

variable [Std.TransCmp cmp] [Std.LawfulEqCmp cmp]

theorem lawful : OrderedOn cmp fun _ => True := OrderedOn.of_lawful

def insert (map : BTreeMap κ β cmp) (key : κ) (value : β) : BTreeMap κ β cmp where
  entries := SortedMap.insert cmp key value map.entries
  sorted := SortedMap.insert_sorted lawful trivial
    (fun _ _ => trivial) map.sorted value

variable {map : BTreeMap κ β cmp} {key : κ} {value : β}

theorem get?_eq_some : map.get? key = some value ↔ (key, value) ∈ map.entries :=
  SortedMap.find?_eq_some lawful trivial (fun _ _ => trivial) map.sorted

/-- Maps with the same entries for a key give it the same value. -/
theorem get?_congr {left right : BTreeMap κ β cmp} {other : κ}
    (same : ∀ value, (key, value) ∈ left.entries ↔ (other, value) ∈ right.entries) :
    left.get? key = right.get? other := by
  apply Option.ext
  intro value
  rw [get?_eq_some, get?_eq_some]
  exact same value

theorem get?_eq_none_of_forall (absent : ∀ value, (key, value) ∉ map.entries) :
    map.get? key = none := by
  apply Option.eq_none_iff_forall_not_mem.mpr
  intro value found
  exact absent value (get?_eq_some.mp found)

variable {entry : κ × β}

theorem mem_insert :
    entry ∈ (map.insert key value).entries ↔
      entry = (key, value) ∨ (entry.1 ≠ key ∧ entry ∈ map.entries) :=
  SortedMap.mem_insert lawful trivial (fun _ _ => trivial) map.sorted

theorem mem_remove : entry ∈ (map.remove key).entries ↔ entry.1 ≠ key ∧ entry ∈ map.entries :=
  SortedMap.mem_erase lawful trivial (fun _ _ => trivial) map.sorted

theorem value_unique {left right : β} (inLeft : (key, left) ∈ map.entries)
    (inRight : (key, right) ∈ map.entries) : left = right := by
  have found := get?_eq_some.mpr inLeft
  rw [get?_eq_some.mpr inRight] at found
  exact (Option.some.inj found).symm

omit [Std.LawfulEqCmp cmp] in
theorem entries_nodup (map : BTreeMap κ β cmp) : map.entries.Nodup := by
  refine map.sorted.imp fun {left right} below same => ?_
  rw [same] at below
  exact Std.OrientedCmp.not_lt_of_lt below below

def values (map : BTreeMap κ β cmp) : Multiset β := (map.entries.map Prod.snd : List β)

/-- A new key adds its value. -/
theorem values_insert (value : β) (fresh : ∀ entry ∈ map.entries, entry.1 ≠ key) :
    (map.insert key value).values = value ::ₘ map.values :=
  Multiset.coe_eq_coe.mpr ((SortedMap.insert_perm lawful trivial
    (fun _ _ => trivial) map.sorted value fresh).map Prod.snd)

/-- Removing a key takes its value away. -/
theorem values_remove (mem : (key, value) ∈ map.entries) :
    map.values = value ::ₘ (map.remove key).values :=
  Multiset.coe_eq_coe.mpr ((SortedMap.erase_perm lawful trivial
    (fun _ _ => trivial) map.sorted mem).map Prod.snd)

/-- The values after a key is removed, but for the value it had. -/
theorem count_remove [DecidableEq β] (absent : (key, value) ∉ map.entries) :
    (map.remove key).values.count value = map.values.count value := by
  by_cases held : ∃ old, (key, old) ∈ map.entries
  · obtain ⟨old, mem⟩ := held
    have ne : value ≠ old := fun same => absent (same ▸ mem)
    rw [values_remove mem, Multiset.count_cons_of_ne ne]
  · have untouched : (map.remove key).entries = map.entries :=
      SortedMap.erase_eq_self lawful trivial (fun _ _ => trivial)
        map.sorted fun entry mem same => held ⟨entry.2, same ▸ mem⟩
    rw [values, values, untouched]

/-- The values after a key is set, but for the value it had. -/
theorem count_insert [DecidableEq β] (put : β) (absent : (key, value) ∉ map.entries) :
    (map.insert key put).values.count value =
      map.values.count value + if value = put then 1 else 0 := by
  have replaced : (map.insert key put).entries.Perm ((key, put) :: (map.remove key).entries) :=
    SortedMap.insert_perm_erase lawful trivial (fun _ _ => trivial) map.sorted put
  have values : (map.insert key put).values = put ::ₘ (map.remove key).values :=
    Multiset.coe_eq_coe.mpr (replaced.map Prod.snd)
  rw [values, Multiset.count_cons, count_remove absent]

/-- Entries with new keys, put one after another. -/
theorem mem_foldl_insert {added : List (κ × β)} (nodup : (added.map Prod.fst).Nodup)
    (fresh : ∀ entry ∈ map.entries, entry.1 ∉ added.map Prod.fst) :
    entry ∈ (added.foldl (fun map entry => map.insert entry.1 entry.2) map).entries ↔
      entry ∈ added ∨ entry ∈ map.entries := by
  induction added generalizing map with
  | nil => simp
  | cons head tail ih =>
    obtain ⟨headFresh, tailDistinct⟩ := nodup_cons.mp nodup
    have stillFresh : ∀ entry ∈ (map.insert head.1 head.2).entries,
        entry.1 ∉ tail.map Prod.fst := by
      intro entry mem
      rcases mem_insert.mp mem with rfl | ⟨_, old⟩
      · exact headFresh
      · exact fun inTail => fresh entry old (mem_cons_of_mem _ inTail)
    have unaffected : entry ∈ map.entries → entry.1 ≠ head.1 := by
      intro old same
      exact fresh entry old (by rw [same]; exact mem_cons_self)
    rw [foldl_cons, ih tailDistinct stillFresh, mem_insert, mem_cons]
    constructor
    · rintro (inTail | here | ⟨_, old⟩)
      · exact .inl (.inr inTail)
      · exact .inl (.inl here)
      · exact .inr old
    · rintro ((here | inTail) | old)
      · exact .inr (.inl here)
      · exact .inl inTail
      · exact .inr (.inr ⟨unaffected old, old⟩)

section

variable [DecidableEq κ] (map : BTreeMap κ β cmp) (key other : κ)

theorem get?_insert (value : β) :
    (map.insert key value).get? other = if other = key then some value else map.get? other := by
  split
  case isTrue same =>
    rw [same]
    exact get?_eq_some.mpr (mem_insert.mpr (.inl rfl))
  case isFalse ne =>
    apply get?_congr
    intro found
    rw [mem_insert]
    simp [ne]

theorem get?_remove :
    (map.remove key).get? other = if other = key then none else map.get? other := by
  split
  case isTrue same =>
    apply get?_eq_none_of_forall
    intro value mem
    exact (mem_remove.mp mem).1 same
  case isFalse ne =>
    apply get?_congr
    intro found
    rw [mem_remove]
    simp [ne]

end

theorem get?_retain (map : BTreeMap κ β cmp) (keep : κ → Bool) (other : κ) :
    (map.retain keep).get? other = if keep other then map.get? other else none := by
  split
  case isTrue kept =>
    apply get?_congr
    simp [retain, kept]
  case isFalse dropped =>
    apply get?_eq_none_of_forall
    intro value mem
    exact dropped (mem_filter.mp mem).2

end BTreeMap

end ReadySet.Library
