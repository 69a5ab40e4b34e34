import Mathlib.Data.Option.Basic
import Mathlib.Data.List.Basic

/-!
Owns the truth values of a logic with an unknown: Kleene's connectives, and
sequential ones that read their left side first and stop at an unknown.
A sequential connective differs from Kleene's in one case (`seqOr_eq_or_iff`,
`seqAnd_eq_and_iff`); a sequential disjunction of many is decided by its first
member that is not false (`foldl_seqOr`).
-/

namespace ReadySet.Library

/-- A truth value; `none` is unknown. -/
abbrev Truth := Option Bool

namespace Truth

def not : Truth → Truth := Option.map Bool.not

def and : Truth → Truth → Truth
  | some false, _ => some false
  | some true, right => right
  | none, some false => some false
  | none, _ => none

def or : Truth → Truth → Truth
  | some true, _ => some true
  | some false, right => right
  | none, some true => some true
  | none, _ => none

/-- The disjunction of a list. -/
def anyOf (members : List Truth) : Truth := members.foldr or (some false)

/-- Conjunction that is unknown as soon as its left side is. -/
def seqAnd : Truth → Truth → Truth
  | none, _ => none
  | some false, _ => some false
  | some true, right => right

/-- Disjunction that is unknown as soon as its left side is. -/
def seqOr : Truth → Truth → Truth
  | none, _ => none
  | some true, _ => some true
  | some false, right => right

theorem seqAnd_eq_and_iff {left right : Truth} :
    seqAnd left right = and left right ↔ ¬(left = none ∧ right = some false) := by
  rcases left with _ | _ | _ <;> rcases right with _ | _ | _ <;> decide

theorem seqOr_eq_or_iff {left right : Truth} :
    seqOr left right = or left right ↔ ¬(left = none ∧ right = some true) := by
  rcases left with _ | _ | _ <;> rcases right with _ | _ | _ <;> decide

theorem not_injective : Function.Injective not := by
  rintro (_ | _ | _) (_ | _ | _) <;> decide

theorem not_seqOr (left right : Truth) : (seqOr left right).not = seqAnd left.not right.not := by
  rcases left with _ | _ | _ <;> rfl

/-- The first member that is not false decides. -/
theorem foldl_seqOr (members : List Truth) :
    members.foldl seqOr (some false) = (members.find? (· != some false)).getD (some false) := by
  have stays : ∀ (members : List Truth) (start : Truth), start ≠ some false →
      members.foldl seqOr start = start := by
    intro members start known
    induction members with
    | nil => rfl
    | cons mem members ih =>
      have kept : seqOr start mem = start := by
        rcases start with _ | _ | _
        · rfl
        · exact absurd rfl known
        · rfl
      rw [List.foldl_cons, kept, ih]
  induction members with
  | nil => rfl
  | cons mem members ih =>
    by_cases undecided : mem = some false
    · subst undecided
      rw [List.find?_cons_of_neg (by decide), ← ih]
      rfl
    · rw [List.find?_cons_of_pos (by simpa using undecided)]
      exact stays members mem undecided

variable {members : List Truth}

theorem anyOf_eq_true_iff : anyOf members = some true ↔ some true ∈ members := by
  induction members with
  | nil => decide
  | cons mem members ih =>
    rw [List.mem_cons, ← ih]
    change or mem (anyOf members) = some true ↔ _
    rcases mem with _ | _ | _ <;> rcases anyOf members with _ | _ | _ <;> decide

theorem anyOf_eq_false_iff : anyOf members = some false ↔ ∀ mem ∈ members, mem = some false := by
  induction members with
  | nil => decide
  | cons mem members ih =>
    rw [List.forall_mem_cons, ← ih]
    change or mem (anyOf members) = some false ↔ _
    rcases mem with _ | _ | _ <;> rcases anyOf members with _ | _ | _ <;> decide

/-- The sequential disjunction of a list is the disjunction of another one with
unknowns when the first has them, exactly when its first member that is not
false tells whether the other list has a true one. -/
theorem foldl_seqOr_eq_anyOf_iff {others : List Truth} (unknowns : none ∈ members ↔ none ∈ others) :
    members.foldl seqOr (some false) = anyOf others ↔
      (members.find? (· != some false) = some (some true) ↔ some true ∈ others) := by
  rw [foldl_seqOr, ← anyOf_eq_true_iff]
  rcases found : members.find? (· != some false) with _ | _ | _ | _
  · have undecided := List.find?_eq_none.mp found
    have known : anyOf others ≠ none := by
      intro unknown
      have noTrue : some true ∉ others := fun present =>
        nomatch unknown.symm.trans (anyOf_eq_true_iff.mpr present)
      have noUnknown : none ∉ others := fun present =>
        absurd (by decide) (undecided none (unknowns.mpr present))
      have allFalse : anyOf others = some false := by
        refine anyOf_eq_false_iff.mpr fun mem present => ?_
        rcases mem with _ | _ | _
        · exact absurd present noUnknown
        · rfl
        · exact absurd present noTrue
      cases unknown.symm.trans allFalse
    rcases total : anyOf others with _ | _ | _
    · exact absurd total known
    · decide
    · decide
  · have unknown : anyOf others ≠ some false := by
      intro allFalse
      have present := unknowns.mp (List.mem_of_find?_eq_some found)
      cases anyOf_eq_false_iff.mp allFalse _ present
    rcases total : anyOf others with _ | _ | _
    · decide
    · exact absurd total unknown
    · decide
  · exact absurd (List.find?_some found) (by decide)
  · rcases anyOf others with _ | _ | _ <;> decide

end Truth

end ReadySet.Library
