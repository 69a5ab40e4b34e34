import Mathlib

/-!
Owns the places between the points of a linear order: below all points, just before
or just after a point, and above all points. Increasing lists of cuts describe sets
of points, where every cut switches between the outside and the inside of the set.
-/

namespace ReadySet.Library

universe u v

/-- The linear order of a lawful comparison, with the comparison itself. -/
@[reducible] def linearOrderOf {α : Type u} [ord : Ord α] [Std.TransOrd α] [Std.LawfulEqOrd α] :
    LinearOrder α where
  toOrd := ord
  le left right := (compare left right).isLE = true
  lt left right := compare left right = .lt
  le_refl _ := by simp
  le_trans _ _ _ := Std.TransCmp.isLE_trans
  le_antisymm _ _ forth back :=
    Std.LawfulEqCmp.eq_of_compare (Std.OrientedCmp.isLE_antisymm forth back)
  le_total left right := by
    have swapped : compare right left = (compare left right).swap := Std.OrientedCmp.eq_swap
    rw [swapped]
    cases compare left right <;> simp
  lt_iff_le_not_ge left right := by
    have swapped : compare right left = (compare left right).swap := Std.OrientedCmp.eq_swap
    rw [swapped]
    cases compare left right <;> simp
  toDecidableLE _ _ := inferInstance
  toDecidableLT _ _ := inferInstance
  toDecidableEq left right :=
    decidable_of_iff (compare left right = .eq) Std.LawfulEqCmp.compare_eq_iff_eq
  compare_eq_compareOfLessAndEq left right := by
    rw [compareOfLessAndEq]
    split
    · assumption
    · split
      · next same => simp [same]
      · next notLess notSame =>
        cases isCmp : compare left right with
        | lt => exact absurd isCmp notLess
        | eq => exact absurd (Std.LawfulEqCmp.eq_of_compare isCmp) notSame
        | gt => rfl

/-- A place between points. -/
inductive Cut (α : Type u) where
  | bottom
  | before (point : α)
  | after (point : α)
  | top
deriving DecidableEq, Repr

namespace Cut

variable {α : Type u}

/-- The places in their order. -/
def place : Cut α → WithBot (WithTop (α ×ₗ Bool))
  | bottom => ⊥
  | before point => ((toLex (point, false) : α ×ₗ Bool) : WithTop (α ×ₗ Bool))
  | after point => ((toLex (point, true) : α ×ₗ Bool) : WithTop (α ×ₗ Bool))
  | top => ((⊤ : WithTop (α ×ₗ Bool)) : WithBot (WithTop (α ×ₗ Bool)))

theorem place_injective : Function.Injective (place (α := α)) := by
  intro left right same
  cases left <;> cases right <;> simp_all [place]
  exact WithBot.bot_ne_coe same

variable [LinearOrder α] {lower upper : Cut α} {point : α}

instance : LinearOrder (Cut α) := LinearOrder.lift' place place_injective

theorem lt_iff_place {left right : Cut α} : left < right ↔ place left < place right := Iff.rfl

section

variable {left right : α} {cut : Cut α}

@[simp] theorem before_lt_before : before left < before right ↔ left < right := by
  simp [lt_iff_place, place, Prod.Lex.toLex_lt_toLex]

@[simp] theorem before_lt_after : before left < after right ↔ left ≤ right := by
  simp [lt_iff_place, place, Prod.Lex.toLex_lt_toLex, le_iff_lt_or_eq]

@[simp] theorem after_lt_before : after left < before right ↔ left < right := by
  simp [lt_iff_place, place, Prod.Lex.toLex_lt_toLex]

@[simp] theorem after_lt_after : after left < after right ↔ left < right := by
  simp [lt_iff_place, place, Prod.Lex.toLex_lt_toLex]

@[simp] theorem before_le_before : before left ≤ before right ↔ left ≤ right := by
  rw [← not_lt, before_lt_before, not_lt]

@[simp] theorem before_le_after : before left ≤ after right ↔ left ≤ right := by
  rw [← not_lt, after_lt_before, not_lt]

@[simp] theorem after_le_before : after left ≤ before right ↔ left < right := by
  rw [← not_lt, before_lt_after, not_le]

@[simp] theorem after_le_after : after left ≤ after right ↔ left ≤ right := by
  rw [← not_lt, after_lt_after, not_lt]

@[simp] theorem not_lt_bottom : ¬cut < bottom := by
  simp [lt_iff_place, place]

@[simp] theorem bottom_le : bottom ≤ cut := not_lt.mp not_lt_bottom

@[simp] theorem not_top_lt : ¬top < cut := by
  cases cut <;> simp [lt_iff_place, place]

@[simp] theorem le_top : cut ≤ top := not_lt.mp not_top_lt

@[simp] theorem bottom_lt_before : bottom < before left := by simp [lt_iff_place, place]

@[simp] theorem bottom_lt_after : bottom < after left := by simp [lt_iff_place, place]

@[simp] theorem bottom_lt_top : (bottom : Cut α) < top := by simp [lt_iff_place, place]

@[simp] theorem before_lt_top : before left < top := WithBot.coe_lt_coe.mpr (WithTop.coe_lt_top _)

@[simp] theorem after_lt_top : after left < top := WithBot.coe_lt_coe.mpr (WithTop.coe_lt_top _)

end

/-- A point is above a cut. -/
def IsBelow (cut : Cut α) (point : α) : Prop := cut ≤ before point

instance (cut : Cut α) (point : α) : Decidable (cut.IsBelow point) :=
  inferInstanceAs (Decidable (cut ≤ before point))

theorem not_isBelow {cut : Cut α} : ¬cut.IsBelow point ↔ after point ≤ cut := by
  cases cut <;> simp [IsBelow]

theorem IsBelow.of_le (le : lower ≤ upper)
    (below : upper.IsBelow point) : lower.IsBelow point := le_trans le below

/-- The points between two cuts. -/
def between (lower upper : Cut α) : Set α := {point | lower.IsBelow point ∧ ¬upper.IsBelow point}

instance (lower upper : Cut α) (point : α) : Decidable (point ∈ between lower upper) :=
  inferInstanceAs (Decidable (lower.IsBelow point ∧ ¬upper.IsBelow point))

/-- Between two cuts of a dense order without ends is a point. -/
theorem between_nonempty [DenselyOrdered α] [NoMinOrder α] [NoMaxOrder α] [Nonempty α]
    (less : lower < upper) : (between lower upper).Nonempty := by
  cases lower with
  | bottom =>
    cases upper with
    | bottom => simp at less
    | before stop =>
      obtain ⟨point, below⟩ := exists_lt stop
      exact ⟨point, by simp [between, IsBelow, below]⟩
    | after stop => exact ⟨stop, by simp [between, IsBelow]⟩
    | top => exact ⟨Classical.arbitrary α, by simp [between, IsBelow]⟩
  | before start =>
    refine ⟨start, ?_⟩
    cases upper <;> simp_all [between, IsBelow]
  | after start =>
    cases upper with
    | bottom => simp at less
    | before stop =>
      obtain ⟨point, above, below⟩ := exists_between (after_lt_before.mp less)
      exact ⟨point, by simp [between, IsBelow, above, below]⟩
    | after stop => exact ⟨stop, by simpa [between, IsBelow] using less⟩
    | top =>
      obtain ⟨point, above⟩ := exists_gt start
      exact ⟨point, by simp [between, IsBelow, above]⟩
  | top => simp at less

end Cut

/-! ## Switching at cuts -/

section

variable {α : Type u} [LinearOrder α]

/-- The side of a point, where every cut below the point switches the side. -/
def sideAt (side : Bool) : List (Cut α) → α → Bool
  | [], _ => side
  | cut :: rest, point => if cut.IsBelow point then sideAt (!side) rest point else side

variable {side : Bool} {cuts first second : List (Cut α)} {point : α}

theorem sideAt_of_not_below (above : ∀ cut ∈ cuts, ¬cut.IsBelow point) :
    sideAt side cuts point = side := by
  cases cuts with
  | nil => rfl
  | cons cut rest => rw [sideAt, if_neg (above cut List.mem_cons_self)]

theorem sideAt_append_of_below (below : ∀ cut ∈ first, cut.IsBelow point) :
    sideAt side (first ++ second) point = sideAt (side ^^ first.length.bodd) second point := by
  induction first generalizing side with
  | nil => simp
  | cons cut rest ih =>
    rw [List.cons_append, sideAt, if_pos (below cut List.mem_cons_self),
      ih fun other mem => below other (List.mem_cons_of_mem _ mem)]
    simp

theorem sideAt_append_of_not_below (above : ∀ cut ∈ second, ¬cut.IsBelow point) :
    sideAt side (first ++ second) point = sideAt side first point := by
  induction first generalizing side with
  | nil => exact sideAt_of_not_below above
  | cons cut rest ih =>
    rw [List.cons_append, sideAt, sideAt, ih]

end

end ReadySet.Library
