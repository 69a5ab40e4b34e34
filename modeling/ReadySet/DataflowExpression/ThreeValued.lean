import ReadySet.DataflowExpression.Lower

/-!
Owns the meaning of conditions in SQL's three-valued logic, and when the
lowered conditions have it.

Lowered conditions deviate in five ways: AND and OR are unknown as soon as
their left side is, NOT takes every number but 1 for false, `=` first coerces
its right side to the type of the left one, an IN list is decided by the first
comparison that is not false, and an empty one has the wrong constant. `Plain`
says that a condition meets none of them; `parts_right_iff` that the parts of a
condition have their meaning exactly when they are plain.
-/

namespace ReadySet.DataflowExpression

open Data Dataflow Library Value List Option Except

variable {C : Type} {condition : AstExpr C}

/-! ## The meaning of a condition -/

/-- A number as a truth value. -/
def truthOf : Option ℤ → Truth := Option.map (· != 0)

/-- A truth value as a number. -/
def numberOf : Truth → Option ℤ := Option.map fun truth => if truth then 1 else 0

@[simp] theorem truthOf_numberOf (truth : Truth) : truthOf (numberOf truth) = truth := by
  rcases truth with _ | _ | _ <;> rfl

theorem numberOf_injective : Function.Injective numberOf :=
  Function.LeftInverse.injective truthOf_numberOf

theorem toInt?_ofTruth (truth : Truth) : (ofTruth truth).toInt? = numberOf truth := by
  rcases truth with _ | _ | _ <;> rfl

/-- What SQL makes of two operands. -/
def BinaryOperator.meaning : BinaryOperator → Option ℤ → Option ℤ → Truth
  | .and, left, right => (truthOf left).and (truthOf right)
  | .or, left, right => (truthOf left).or (truthOf right)
  | .equal, left, right => compared (· == ·) left right
  | .notEqual, left, right => (compared (· == ·) left right).not
  | .greater, left, right => compared (fun left right => left > right) left right
  | .greaterOrEqual, left, right => compared (fun left right => left ≥ right) left right
  | .less, left, right => compared (fun left right => left < right) left right
  | .lessOrEqual, left, right => compared (fun left right => left ≤ right) left right
  | .is, left, right => some (left == right)
  | .isNot, left, right => some (left != right)

/-- Whether a number is in a list, with NULL as a number that is not known. -/
def membership (number : Option ℤ) (members : List (Option ℤ)) : Truth :=
  Truth.anyOf (members.map (compared (· == ·) number))

mutual

/-- The value of a condition on a record; a truth value is the number 1 or 0. -/
def AstExpr.meaning (context : LowerContext C) (record : List Value) : AstExpr C → Option ℤ
  | .literal lit => lit.toValue.toInt?
  | .column col =>
    match context col with
    | .ok (index, _) => (record.getD index .none).toInt?
    | .error _ => none
  | .binaryOp lhs op rhs =>
    numberOf (op.meaning (lhs.meaning context record) (rhs.meaning context record))
  | .not rhs => numberOf (truthOf (rhs.meaning context record)).not
  | .isIn lhs exprs negated =>
    numberOf (signed negated
      (membership (lhs.meaning context record) (meanings context record exprs)))

def meanings (context : LowerContext C) (record : List Value) :
    List (AstExpr C) → List (Option ℤ)
  | [] => []
  | expr :: exprs => expr.meaning context record :: meanings context record exprs

end

theorem meanings_eq_map (ctx : LowerContext C) (record : List Value) (exprs : List (AstExpr C)) :
    meanings ctx record exprs = exprs.map (AstExpr.meaning ctx record) := by
  induction exprs with
  | nil => rfl
  | cons expr exprs ih => rw [meanings, ih, map_cons]

/-- Lowers a condition and evaluates what this gives. -/
def evaluate (context : LowerContext C) (record : List Value) (condition : AstExpr C) :
    ReadySetResult Value := do
  let lowered ← lower context condition
  lowered.eval record

/-- A condition is evaluated to NULL exactly when it is unknown, and otherwise
to a truthy value exactly when it is true. -/
def Right (context : LowerContext C) (record : List Value) (condition : AstExpr C) : Prop :=
  ∃ value, evaluate context record condition = .ok value ∧
    (value = .none ↔ truthOf (condition.meaning context record) = none) ∧
    (value ≠ .none →
      (value.isTruthy = true ↔ truthOf (condition.meaning context record) = some true))

/-! ## Plain conditions -/

/-- `=` on numbers sees the right one unchanged. -/
def DfType.Compares (ty : DfType) (left right : ℤ) : Prop :=
  ty.Holds right ∧ (left = ty.coerced right ↔ left = right)

/-- The members that end the evaluation of an IN list. -/
def DfType.decides (ty : DfType) (number : ℤ) (member : Option ℤ) : Bool :=
  member.all fun member => number == ty.coerced member

/-- A condition at whose root the source and SQL agree. -/
def AstExpr.Plain (context : LowerContext C) (record : List Value) : AstExpr C → Prop
  | .literal _ => True
  | .column _ => True
  | .binaryOp lhs op rhs =>
    let left := lhs.meaning context record
    let right := rhs.meaning context record
    match op with
    | .and => ¬(left = none ∧ truthOf right = some false)
    | .or => ¬(left = none ∧ truthOf right = some true)
    | .equal | .notEqual =>
      ∀ l ∈ left, ∀ r ∈ right, (lhs.ty context).Compares l r
    | _ => True
  | .not rhs => ∀ number ∈ rhs.meaning context record, number = 0 ∨ number = 1
  | .isIn lhs exprs _ =>
    exprs ≠ [] ∧ ∀ number ∈ lhs.meaning context record,
      (∀ expr ∈ exprs, ∀ member ∈ expr.meaning context record, (lhs.ty context).Holds member) ∧
      ((((exprs.map (AstExpr.meaning context record)).find?
          ((lhs.ty context).decides number)).join.isSome = true) ↔
        ∃ expr ∈ exprs, expr.meaning context record = some number)

mutual

/-- A condition and the conditions it is built from. -/
def AstExpr.parts : AstExpr C → List (AstExpr C)
  | .literal lit => [.literal lit]
  | .column col => [.column col]
  | .binaryOp lhs op rhs => .binaryOp lhs op rhs :: (lhs.parts ++ rhs.parts)
  | .not rhs => .not rhs :: rhs.parts
  | .isIn lhs exprs negated => .isIn lhs exprs negated :: (lhs.parts ++ allParts exprs)

def allParts : List (AstExpr C) → List (AstExpr C)
  | [] => []
  | expr :: exprs => expr.parts ++ allParts exprs

end

theorem allParts_eq_flatMap (exprs : List (AstExpr C)) :
    allParts exprs = exprs.flatMap AstExpr.parts := by
  induction exprs with
  | nil => rfl
  | cons expr exprs ih => rw [allParts, ih, flatMap_cons]

/-! ## Lowering a condition -/

section

variable {ctx : LowerContext C} {record : List Value} {exprs : List (AstExpr C)}

theorem lowerAll_ok (succeed : ∀ expr ∈ exprs, ∃ lowered, lower ctx expr = .ok lowered ∧
      lowered.ty = expr.ty ctx) :
    ∃ results, lowerAll ctx exprs = .ok results ∧
      Forall₂ (fun expr lowered => lower ctx expr = .ok lowered) exprs results := by
  rw [lowerAll_eq_mapM]
  refine exists_mapM_iff.mpr fun expr mem => ?_
  obtain ⟨lowered, lowers, _⟩ := succeed expr mem
  exact ⟨lowered, lowers, lowers⟩

/-- A condition over resolved columns is lowered, with its type. -/
theorem lower_ok (condition : AstExpr C) (resolved : condition.Resolved ctx record) :
    ∃ lowered, lower ctx condition = .ok lowered ∧ lowered.ty = condition.ty ctx := by
  induction condition using AstExpr.induct with
  | literal lit => exact ⟨_, by rw [lower], rfl⟩
  | column col =>
    obtain ⟨index, ty, found, _, _⟩ := resolved
    refine ⟨.column index ty, ?_, ?_⟩
    · rw [lower, found]
      rfl
    · rw [AstExpr.ty, found]
      rfl
  | binaryOp lhs op rhs ofLhs ofRhs =>
    obtain ⟨left, lowerLeft, leftTy⟩ := ofLhs resolved.1
    obtain ⟨right, lowerRight, _⟩ := ofRhs resolved.2
    refine ⟨.op op left right (op.outputType left.ty), ?_, ?_⟩
    · rw [lower, lowerLeft, lowerRight]
      rfl
    · rw [AstExpr.ty, ← leftTy]
      rfl
  | not rhs ofRhs =>
    obtain ⟨left, lowerLeft, _⟩ := ofRhs resolved
    refine ⟨.op .notEqual left (.literal (.value (.int 1)) .int) .bool, ?_, rfl⟩
    rw [lower, lowerLeft]
    rfl
  | isIn lhs exprs negated ofLhs ofExprs =>
    rcases exprs with _ | ⟨first, exprs⟩
    · cases negated
      · exact ⟨_, by rw [lower]; rfl, rfl⟩
      · exact ⟨_, by rw [lower]; rfl, rfl⟩
    · obtain ⟨left, lowerLeft, _⟩ := ofLhs resolved.1
      have members := allResolved_iff.mp resolved.2
      have succeed := fun expr mem => ofExprs expr mem (members expr mem)
      obtain ⟨lowered, lowerFirst, _⟩ := succeed first mem_cons_self
      obtain ⟨results, lowerRest, _⟩ := lowerAll_ok fun expr mem =>
        succeed expr (mem_cons_of_mem first mem)
      refine ⟨inList negated left lowered results, ?_, inList_ty _ _ _ _⟩
      rw [lower, lowerLeft, lowerFirst, lowerRest]
      rfl

variable {lhs : AstExpr C} {negated : Bool}

theorem lower_isIn {first : AstExpr C}
    (resolved : (AstExpr.isIn lhs (first :: exprs) negated).Resolved ctx record) :
    ∃ left lowered results, lower ctx lhs = .ok left ∧ left.ty = lhs.ty ctx ∧
      Forall₂ (fun expr lowered => lower ctx expr = .ok lowered)
        (first :: exprs) (lowered :: results) ∧
      lower ctx (.isIn lhs (first :: exprs) negated)
        = .ok (inList negated left lowered results) := by
  have succeed := fun expr mem => lower_ok expr (allResolved_iff.mp resolved.2 expr mem)
  obtain ⟨left, lowerLeft, leftTy⟩ := lower_ok lhs resolved.1
  obtain ⟨lowered, lowerFirst, _⟩ := succeed first mem_cons_self
  obtain ⟨results, lowerRest, members⟩ := lowerAll_ok fun expr mem =>
    succeed expr (mem_cons_of_mem first mem)
  refine ⟨left, lowered, results, lowerLeft, leftTy, .cons lowerFirst members, ?_⟩
  rw [lower, lowerLeft, lowerFirst, lowerRest]
  rfl

variable {condition : AstExpr C}

theorem evaluate_of_lower {lowered : Expr} (lowers : lower ctx condition = .ok lowered) :
    evaluate ctx record condition = lowered.eval record := by
  rw [evaluate, lowers]
  rfl

variable {rhs : AstExpr C} {left : Value} {right : Value}

/-- Operands are evaluated one after the other, also where the operator does
not need the second. -/
theorem evaluate_binaryOp (op : BinaryOperator)
    (leftResolved : lhs.Resolved ctx record) (rightResolved : rhs.Resolved ctx record)
    (leftValue : evaluate ctx record lhs = .ok left)
    (rightValue : evaluate ctx record rhs = .ok right) :
    evaluate ctx record (.binaryOp lhs op rhs)
      = evalBinaryOp op (left, lhs.ty ctx) (right, rhs.ty ctx) := by
  obtain ⟨loweredLeft, lowerLeft, leftTy⟩ := lower_ok lhs leftResolved
  obtain ⟨loweredRight, lowerRight, rightTy⟩ := lower_ok rhs rightResolved
  rw [evaluate_of_lower lowerLeft] at leftValue
  rw [evaluate_of_lower lowerRight] at rightValue
  rw [evaluate, lower, lowerLeft, lowerRight, ← leftTy, ← rightTy]
  change Expr.eval record (.op op loweredLeft loweredRight (op.outputType loweredLeft.ty)) = _
  rw [Expr.eval, leftValue, rightValue]
  rfl

variable {value : Value}

theorem evaluate_not (resolved : rhs.Resolved ctx record)
    (evaluated : evaluate ctx record rhs = .ok value) :
    evaluate ctx record (.not rhs)
      = compareCoerced true (value, rhs.ty ctx) (.value (.int 1), .int) := by
  obtain ⟨lowered, lowers, ty⟩ := lower_ok rhs resolved
  rw [evaluate_of_lower lowers] at evaluated
  rw [evaluate, lower, lowers, ← ty]
  change Expr.eval record (.op .notEqual lowered (.literal (.value (.int 1)) .int) .bool) = _
  rw [Expr.eval, evaluated]
  rfl

/-! ## Values of conditions -/

variable {op : BinaryOperator}

theorem evalBinaryOp_eq_ofTruth {left right : Value × DfType}
    (evaluated : evalBinaryOp op left right = .ok value) : ∃ truth, ofTruth truth = value := by
  have ofCoerced : ∀ negated, compareCoerced negated left right = .ok value →
      ∃ truth, ofTruth truth = value := by
    intro negated
    obtain ⟨_ | leftInteger, leftTy⟩ := left
    · exact fun same => ⟨none, ok.inj same⟩
    obtain ⟨_ | rightInteger, rightTy⟩ := right
    · exact fun same => ⟨none, ok.inj same⟩
    intro same
    obtain ⟨coerced, coercion, same⟩ := bind_eq_ok.mp same
    exact ⟨some _, ok.inj same⟩
  have ofCompared : ∀ test, compareIntegers test left.1 right.1 = .ok value →
      ∃ truth, ofTruth truth = value := fun test same =>
    ⟨_, ok.inj ((compareIntegers_eq test left.1 right.1).symm.trans same)⟩
  cases op with
  | and => exact ⟨_, ok.inj ((evalBinaryOp_and left right).symm.trans evaluated)⟩
  | or => exact ⟨_, ok.inj ((evalBinaryOp_or left right).symm.trans evaluated)⟩
  | equal => exact ofCoerced false evaluated
  | notEqual => exact ofCoerced true evaluated
  | is | isNot => exact ⟨some _, ok.inj evaluated⟩
  | _ =>
    rw [evalBinaryOp] at evaluated
    exact ofCompared _ evaluated

variable {ty : DfType}

theorem eval_op_ok_iff {left right : Expr} :
    (Expr.op op left right ty).eval record = .ok value ↔
      ∃ leftVal rightVal, left.eval record = .ok leftVal ∧ right.eval record = .ok rightVal ∧
        evalBinaryOp op (leftVal, left.ty) (rightVal, right.ty) = .ok value := by
  simp only [Expr.eval, bind_eq_ok, exists_and_left]

theorem eval_op_eq_ofTruth {left right : Expr}
    (evaluated : (Expr.op op left right ty).eval record = .ok value) :
    ∃ truth, ofTruth truth = value := by
  obtain ⟨_, _, _, _, applied⟩ := eval_op_ok_iff.mp evaluated
  exact evalBinaryOp_eq_ofTruth applied

theorem eval_inList_eq_ofTruth {lhs first : Expr} {exprs : List Expr}
    (evaluated : (inList negated lhs first exprs).eval record = .ok value) :
    ∃ truth, ofTruth truth = value := by
  rcases exprs.eq_nil_or_concat with rfl | ⟨exprs, last, rfl⟩
  · exact eval_op_eq_ofTruth evaluated
  · rw [inList, concat_eq_append, foldl_append] at evaluated
    exact eval_op_eq_ofTruth evaluated

def Exact (context : LowerContext C) (record : List Value) (condition : AstExpr C) : Prop :=
  ∃ value, evaluate context record condition = .ok value ∧
    value.toInt? = condition.meaning context record

theorem truth_eq_truthOf (value : Value) : value.truth = truthOf value.toInt? := rfl

theorem right_iff :
    Right ctx record condition ↔ ∃ value, evaluate ctx record condition = .ok value ∧
      value.truth = truthOf (condition.meaning ctx record) := by
  refine exists_congr fun value => and_congr_right fun _ => ?_
  rcases value with _ | integer
  · have null : truth .none = none := rfl
    rw [null]
    exact ⟨fun reads => (reads.1.mp rfl).symm, fun same => ⟨by simp [← same], by simp⟩⟩
  · rw [truth_value]
    generalize isTruthy (.value integer) = truthy
    rcases truthOf (condition.meaning ctx record) with _ | _ | _ <;> cases truthy <;> simp

/-- The conditions that are not a single column or literal. -/
def AstExpr.Compound : AstExpr C → Prop
  | .literal _ => False
  | .column _ => False
  | _ => True

theorem evaluate_literal {lit : Literal} : Exact ctx record (.literal lit : AstExpr C) :=
  ⟨lit.toValue, by rw [evaluate, lower]; rfl, by rw [AstExpr.meaning]⟩

theorem evaluate_column {col : C} (resolved : (AstExpr.column col).Resolved ctx record) :
    Exact ctx record (.column col) := by
  obtain ⟨index, ty, found, _, inside⟩ := resolved
  refine ⟨record.getD index .none, ?_, ?_⟩
  · rw [evaluate, lower, found]
    change Expr.eval record (.column index ty) = _
    rw [Expr.eval, getElem?_eq_getElem inside, getD_eq_getElem _ _ inside]
  · rw [AstExpr.meaning, found]

/-- Conditions with an operator evaluate to 0, 1 or NULL. -/
theorem evaluate_compound (compound : condition.Compound) (resolved : condition.Resolved ctx record)
    (evaluated : evaluate ctx record condition = .ok value) :
    ∃ truth, value.toInt? = numberOf truth := by
  have ofTruth : (∃ truth, ofTruth truth = value) → ∃ truth, value.toInt? = numberOf truth := by
    rintro ⟨truth, rfl⟩
    exact ⟨truth, toInt?_ofTruth truth⟩
  obtain ⟨lowered, lowers, _⟩ := lower_ok condition resolved
  rw [evaluate_of_lower lowers] at evaluated
  cases condition with
  | literal lit | column col => exact compound.elim
  | binaryOp lhs op rhs =>
    obtain ⟨left, lowerLeft, _⟩ := lower_ok lhs resolved.1
    obtain ⟨right, lowerRight, _⟩ := lower_ok rhs resolved.2
    rw [lower, lowerLeft, lowerRight] at lowers
    obtain rfl := ok.inj lowers
    exact ofTruth (eval_op_eq_ofTruth evaluated)
  | not rhs =>
    obtain ⟨left, lowerLeft, _⟩ := lower_ok rhs resolved
    rw [lower, lowerLeft] at lowers
    obtain rfl := ok.inj lowers
    exact ofTruth (eval_op_eq_ofTruth evaluated)
  | isIn lhs exprs negated =>
    rcases exprs with _ | ⟨first, exprs⟩
    · rw [lower] at lowers
      cases negated
      · obtain rfl := ok.inj lowers
        obtain rfl := ok.inj evaluated
        exact ⟨some true, rfl⟩
      · obtain rfl := ok.inj lowers
        obtain rfl := ok.inj evaluated
        exact ⟨none, rfl⟩
    · obtain ⟨left, member, members, _, _, _, lowersIn⟩ := lower_isIn resolved
      obtain rfl := ok.inj (lowersIn.symm.trans lowers)
      exact ofTruth (eval_inList_eq_ofTruth evaluated)

theorem meaning_compound (compound : condition.Compound) :
    ∃ truth, condition.meaning ctx record = numberOf truth := by
  cases condition with
  | literal lit | column col => exact compound.elim
  | binaryOp lhs op rhs | not rhs | isIn lhs exprs negated => exact ⟨_, by rw [AstExpr.meaning]⟩

section

variable (resolved : condition.Resolved ctx record)

include resolved

/-- A condition of unknown type is NULL. -/
theorem evaluate_of_unknown (unknown : condition.ty ctx = .unknown)
    (evaluated : evaluate ctx record condition = .ok value) : value = .none := by
  induction condition using AstExpr.induct generalizing value with
  | literal lit =>
    obtain rfl := ok.inj evaluated
    cases lit with
    | null => rfl
    | _ => cases unknown
  | column col =>
    obtain ⟨index, ty, found, typed, _⟩ := resolved
    rw [AstExpr.ty, found] at unknown
    exact absurd unknown typed
  | binaryOp lhs op rhs ofLhs _ =>
    obtain ⟨loweredLeft, lowerLeft, leftTy⟩ := lower_ok lhs resolved.1
    obtain ⟨loweredRight, lowerRight, _⟩ := lower_ok rhs resolved.2
    rw [evaluate, lower, lowerLeft, lowerRight] at evaluated
    change Expr.eval record
      (.op op loweredLeft loweredRight (op.outputType loweredLeft.ty)) = _ at evaluated
    obtain ⟨leftVal, rightVal, leftValue, _, applied⟩ := eval_op_ok_iff.mp evaluated
    have leftNull : op.outputType (lhs.ty ctx) = lhs.ty ctx → leftVal = .none := by
      intro same
      exact ofLhs resolved.1 (same.symm.trans unknown)
        ((evaluate_of_lower lowerLeft).trans leftValue)
    cases op with
    | and | or =>
      rw [leftNull rfl] at applied
      exact (ok.inj applied).symm
    | _ => cases unknown
  | not rhs _ | isIn lhs exprs negated _ _ => cases unknown

theorem exact_of_compound (compound : condition.Compound)
    (evaluated : evaluate ctx record condition = .ok value)
    (agrees : value.truth = truthOf (condition.meaning ctx record)) :
    Exact ctx record condition := by
  refine ⟨value, evaluated, ?_⟩
  obtain ⟨truth, number⟩ := evaluate_compound compound resolved evaluated
  obtain ⟨meant, meaning⟩ : ∃ truth, condition.meaning ctx record = numberOf truth :=
    meaning_compound compound
  rw [truth_eq_truthOf, number, meaning, truthOf_numberOf, truthOf_numberOf] at agrees
  rw [number, meaning, agrees]

theorem right_iff_exact : Right ctx record condition ↔ Exact ctx record condition := by
  rw [right_iff]
  constructor
  · rintro ⟨value, evaluated, agrees⟩
    cases condition with
    | literal lit => exact evaluate_literal
    | column col => exact evaluate_column resolved
    | _ => exact exact_of_compound resolved trivial evaluated agrees
  · rintro ⟨value, evaluated, number⟩
    exact ⟨value, evaluated, by rw [truth_eq_truthOf, number]⟩

end

/-! ## One operator -/

theorem signed_injective : Function.Injective (signed negated) := by
  cases negated
  · exact fun _ _ same => same
  · exact Truth.not_injective

theorem truthOf_eq_none {number : Option ℤ} : truthOf number = none ↔ number = none :=
  map_eq_none_iff

/-- Where an operator computes a truth value, the condition is exact when it is
SQL's. -/
theorem exact_iff_of_ok {truth meant : Truth}
    (evaluated : evaluate ctx record condition = .ok (ofTruth truth))
    (meaning : condition.meaning ctx record = numberOf meant) :
    Exact ctx record condition ↔ truth = meant := by
  constructor
  · rintro ⟨value, same, number⟩
    obtain rfl := ok.inj (evaluated.symm.trans same)
    rw [toInt?_ofTruth, meaning] at number
    exact numberOf_injective number
  · rintro rfl
    exact ⟨_, evaluated, by rw [toInt?_ofTruth, meaning]⟩

theorem exact_iff_of_ok_iff (negated : Bool) {outcome : Option Truth} (meant : Truth)
    (evaluated : ∀ value, evaluate ctx record condition = .ok value ↔
      ∃ truth, outcome = some truth ∧ ofTruth (signed negated truth) = value)
    (meaning : condition.meaning ctx record = numberOf (signed negated meant)) :
    Exact ctx record condition ↔ outcome = some meant := by
  constructor
  · rintro ⟨value, same, number⟩
    obtain ⟨truth, computed, rfl⟩ := (evaluated value).mp same
    rw [toInt?_ofTruth, meaning] at number
    rw [computed, signed_injective (numberOf_injective number)]
  · intro computed
    exact ⟨_, (evaluated _).mpr ⟨meant, computed, rfl⟩, by rw [toInt?_ofTruth, meaning]⟩

theorem coercedEqual_eq_iff {left right : Option ℤ} :
    coercedEqual ty left right = some (compared (· == ·) left right) ↔
      ∀ l ∈ left, ∀ r ∈ right, ty.Compares l r := by
  rcases left with _ | left
  · simp [coercedEqual, compared]
  rcases right with _ | right
  · simp [coercedEqual, compared]
  by_cases holds : ty.Holds right
  · have outcome : coercedEqual ty (some left) (some right) = some (some (left == ty.coerced right)) :=
      if_pos holds
    have meant : compared (· == ·) (some left) (some right) = some (left == right) := rfl
    rw [outcome, meant]
    simp [DfType.Compares, holds]
  · simp [coercedEqual, compared, DfType.Compares]

theorem holds_one (known : ty ≠ .unknown) : ty.Holds 1 ∧ ty.coerced 1 = 1 := by
  cases ty with
  | unknown => exact absurd rfl known
  | _ => decide

theorem exact_not_iff (resolved : rhs.Resolved ctx record) (exact : Exact ctx record rhs) :
    Exact ctx record (.not rhs) ↔ (AstExpr.not rhs).Plain ctx record := by
  obtain ⟨value, evaluated, number⟩ := exact
  have unknown : rhs.ty ctx = .unknown → value = .none := fun unknown =>
    evaluate_of_unknown resolved unknown evaluated
  have outcome := fun result => (Eq.congr_left (evaluate_not resolved evaluated)).trans
    (compareCoerced_eq_ok_iff true (value, rhs.ty ctx) (.value (.int 1), .int) result unknown)
  rw [exact_iff_of_ok_iff true (truthOf (rhs.meaning ctx record)) outcome
    (by rw [AstExpr.meaning]; rfl), AstExpr.Plain, ← number]
  rcases value with _ | integer
  · simp [coercedEqual, truthOf]
  · have known : rhs.ty ctx ≠ .unknown := fun unknownTy => by cases unknown unknownTy
    have one : (toInt? (.value (.int 1))) = some 1 := rfl
    obtain ⟨holds, coerced⟩ := holds_one known
    simp only [one, toInt?_value, coercedEqual, if_pos holds, truthOf, map_some,
      some.injEq, mem_def, forall_eq']
    rw [Bool.eq_iff_iff, beq_iff_eq, bne_iff_ne]
    omega

/-- An operator over exact operands is exact just if it is plain. -/
theorem exact_binaryOp_iff (op : BinaryOperator)
    (leftResolved : lhs.Resolved ctx record) (rightResolved : rhs.Resolved ctx record)
    (leftExact : Exact ctx record lhs) (rightExact : Exact ctx record rhs) :
    Exact ctx record (.binaryOp lhs op rhs) ↔ (AstExpr.binaryOp lhs op rhs).Plain ctx record := by
  obtain ⟨left, leftValue, leftNumber⟩ := leftExact
  obtain ⟨right, rightValue, rightNumber⟩ := rightExact
  have evaluated := evaluate_binaryOp op leftResolved rightResolved leftValue rightValue
  have meaning : (AstExpr.binaryOp lhs op rhs).meaning ctx record
      = numberOf (op.meaning left.toInt? right.toInt?) := by
    rw [AstExpr.meaning, leftNumber, rightNumber]
  have unknown : lhs.ty ctx = .unknown → left = .none := fun unknown =>
    evaluate_of_unknown leftResolved unknown leftValue
  -- `=` and `!=` may fail and compare with a coerced number.
  have ofCoerced : ∀ negated, evaluate ctx record (.binaryOp lhs op rhs)
        = compareCoerced negated (left, lhs.ty ctx) (right, rhs.ty ctx) →
      op.meaning left.toInt? right.toInt?
        = signed negated (compared (· == ·) left.toInt? right.toInt?) →
      (Exact ctx record (.binaryOp lhs op rhs) ↔
        ∀ l ∈ left.toInt?, ∀ r ∈ right.toInt?, (lhs.ty ctx).Compares l r) := by
    intro negated compares meant
    rw [← coercedEqual_eq_iff]
    refine exact_iff_of_ok_iff negated _ (fun result => ?_) (by rw [meaning, meant])
    rw [compares]
    exact compareCoerced_eq_ok_iff negated _ _ result unknown
  -- The other operators compute a truth value.
  have always : ∀ truth, evaluate ctx record (.binaryOp lhs op rhs)
      = .ok (ofTruth truth) → truth = op.meaning left.toInt? right.toInt? →
      (Exact ctx record (.binaryOp lhs op rhs) ↔ True) := fun truth computes same =>
    iff_true_intro ((exact_iff_of_ok computes meaning).mpr same)
  simp only [AstExpr.Plain, ← leftNumber, ← rightNumber]
  cases op with
  | and =>
    rw [evalBinaryOp_and] at evaluated
    rw [exact_iff_of_ok evaluated meaning, ← truthOf_eq_none]
    exact Truth.seqAnd_eq_and_iff
  | or =>
    rw [evalBinaryOp_or] at evaluated
    rw [exact_iff_of_ok evaluated meaning, ← truthOf_eq_none]
    exact Truth.seqOr_eq_or_iff
  | equal => exact ofCoerced false evaluated rfl
  | notEqual => exact ofCoerced true evaluated rfl
  | is =>
    refine always (some _) evaluated ?_
    rw [BinaryOperator.meaning, some.injEq, Bool.eq_iff_iff, same_iff, beq_iff_eq]
  | isNot =>
    refine always (some _) evaluated ?_
    rw [BinaryOperator.meaning, some.injEq, Bool.eq_iff_iff, bne_iff_ne, Bool.not_eq_true',
      ← Bool.not_eq_true, same_iff]
  | _ =>
    rw [evalBinaryOp, compareIntegers_eq] at evaluated
    exact always _ evaluated rfl

/-! ## IN lists -/

/-- The disjunction of the comparisons of a list, from left to right; `none`
where one of them fails. -/
def chain (ty : DfType) (number : Option ℤ) (start : Truth) (members : List (Option ℤ)) :
    Option Truth :=
  members.foldlM (fun truth member => (coercedEqual ty number member).map truth.seqOr) start

theorem evalBinaryOp_inOperators (negated : Bool) (left right : Truth) (leftTy rightTy : DfType) :
    evalBinaryOp (inOperators negated).2 (ofTruth (signed negated left), leftTy)
        (ofTruth (signed negated right), rightTy)
      = .ok (ofTruth (signed negated (left.seqOr right))) := by
  cases negated
  · exact (evalBinaryOp_or _ _).trans (by rw [truth_ofTruth, truth_ofTruth]; rfl)
  · have negation : Truth.seqAnd (signed true left) (signed true right)
        = signed true (left.seqOr right) := (Truth.not_seqOr left right).symm
    refine (evalBinaryOp_and _ _).trans ?_
    rw [truth_ofTruth, truth_ofTruth, negation]

theorem eval_makeComparison (negated : Bool) {lhs rhs : Expr}
    (leftValue : lhs.eval record = .ok left) (known : lhs.ty = .unknown → left = .none)
    (rightValue : rhs.eval record = .ok right) (result : Value) :
    (makeComparison negated lhs rhs).eval record = .ok result ↔
      ∃ truth, coercedEqual lhs.ty left.toInt? right.toInt? = some truth ∧
        ofTruth (signed negated truth) = result := by
  have compares : (makeComparison negated lhs rhs).eval record
      = compareCoerced negated (left, lhs.ty) (right, rhs.ty) := by
    rw [makeComparison, Expr.eval, leftValue, rightValue]
    cases negated <;> rfl
  rw [compares]
  exact compareCoerced_eq_ok_iff negated _ _ result known

variable {members : List (Option ℤ)} {number : ℤ}

/-- The chain of comparisons that an `IN` list is lowered to. -/
theorem eval_foldl {lhs : Expr}
    (leftValue : lhs.eval record = .ok left) (known : lhs.ty = .unknown → left = .none)
    {exprs : List Expr} (evaluated : Forall₂ (fun expr member =>
      ∃ value, expr.eval record = .ok value ∧ value.toInt? = member) exprs members)
    (start : Expr) (outcome : Option Truth) (started : ∀ result, start.eval record = .ok result ↔
      ∃ truth, outcome = some truth ∧ ofTruth (signed negated truth) = result) (result : Value) :
    (exprs.foldl (fun acc rhs =>
        Expr.op (inOperators negated).2 acc (makeComparison negated lhs rhs) .bool) start).eval
        record = .ok result ↔
      ∃ truth, (outcome.bind fun truth => chain lhs.ty left.toInt? truth members) = some truth ∧
        ofTruth (signed negated truth) = result := by
  induction evaluated generalizing start outcome with
  | nil =>
    rw [foldl_nil, started]
    simp [chain]
  | @cons expr member exprs members first _ ih =>
    obtain ⟨value, rightValue, rfl⟩ := first
    rw [foldl_cons, ih _ (outcome.bind fun truth =>
      (coercedEqual lhs.ty left.toInt? value.toInt?).map truth.seqOr) ?_]
    · simp only [bind_assoc]
      rfl
    · intro result
      rw [eval_op_ok_iff]
      constructor
      · rintro ⟨accVal, rightVal, accumulated, compared, applied⟩
        obtain ⟨before, known, rfl⟩ := (started accVal).mp accumulated
        obtain ⟨truth, equal, rfl⟩ :=
          (eval_makeComparison negated leftValue ‹_› rightValue rightVal).mp compared
        rw [evalBinaryOp_inOperators] at applied
        refine ⟨before.seqOr truth, ?_, ok.inj applied⟩
        rw [known, equal]
        rfl
      · rintro ⟨truth, combined, rfl⟩
        obtain ⟨before, known, rest⟩ := bind_eq_some_iff.mp combined
        obtain ⟨next, equal, rfl⟩ := map_eq_some_iff.mp rest
        exact ⟨_, _, (started _).mpr ⟨before, known, rfl⟩,
          (eval_makeComparison negated leftValue ‹_› rightValue _).mpr ⟨next, equal, rfl⟩,
          evalBinaryOp_inOperators negated before next _ _⟩

theorem eval_inList {lhs first : Expr}
    (leftValue : lhs.eval record = .ok left) (known : lhs.ty = .unknown → left = .none)
    {exprs : List Expr} (evaluated : Forall₂ (fun expr member =>
      ∃ value, expr.eval record = .ok value ∧ value.toInt? = member) (first :: exprs) members)
    (result : Value) :
    (inList negated lhs first exprs).eval record = .ok result ↔
      ∃ truth, chain lhs.ty left.toInt? (some false) members = some truth ∧
        ofTruth (signed negated truth) = result := by
  obtain ⟨member, members, ⟨value, rightValue, rfl⟩, rest, rfl⟩ :=
    forall₂_cons_left_iff.mp evaluated
  have started := eval_makeComparison negated leftValue known rightValue
  rw [inList, eval_foldl leftValue known rest _ _ started result]
  simp only [chain, foldlM_cons]
  cases coercedEqual lhs.ty left.toInt? value.toInt? <;> rfl

/-- The comparison of a number with a member, as the lowered list makes it. -/
def DfType.outcome (ty : DfType) (number : ℤ) (member : Option ℤ) : Truth :=
  member.map fun member => number == ty.coerced member

theorem chain_of_null : chain ty none none members = some none := by
  induction members with
  | nil => rfl
  | cons member members ih =>
    cases member <;> exact ih

theorem chain_of_holds
    (holds : ∀ member ∈ members, ∀ right ∈ member, ty.Holds right) (start : Truth) :
    chain ty (some number) start members
      = some ((members.map (ty.outcome number)).foldl Truth.seqOr start) := by
  induction members generalizing start with
  | nil => rfl
  | cons member members ih =>
    obtain ⟨ofMember, ofMembers⟩ := forall_mem_cons.mp holds
    have equal : coercedEqual ty (some number) member = some (ty.outcome number member) := by
      rcases member with _ | right
      · rfl
      · exact if_pos (ofMember right rfl)
    rw [chain, foldlM_cons, equal]
    exact ih ofMembers _

theorem holds_of_chain {start truth : Truth}
    (computed : chain ty (some number) start members = some truth) :
    ∀ member ∈ members, ∀ right ∈ member, ty.Holds right := by
  induction members generalizing start with
  | nil => exact fun _ mem => nomatch mem
  | cons member members ih =>
    obtain ⟨next, stepped, rest⟩ := bind_eq_some_iff.mp computed
    obtain ⟨equal, compared, _⟩ := map_eq_some_iff.mp stepped
    refine forall_mem_cons.mpr ⟨?_, ih rest⟩
    rintro right rfl
    by_contra outside
    cases (if_neg outside).symm.trans compared

theorem membership_null {member : Option ℤ} : membership none (member :: members) = none := by
  have unknowns : (member :: members).map (compared (· == ·) none)
      = replicate (members.length + 1) (none : Truth) :=
    map_const' ..
  rw [membership, unknowns]
  have known : Truth.anyOf (replicate (members.length + 1) none) ≠ some true := by
    rw [Ne, Truth.anyOf_eq_true_iff]
    simp
  have unknown : Truth.anyOf (replicate (members.length + 1) none) ≠ some false := by
    rw [Ne, Truth.anyOf_eq_false_iff]
    simp
  rcases total : Truth.anyOf (replicate (members.length + 1) none) with _ | _ | _
  · rfl
  · exact absurd total unknown
  · exact absurd total known

theorem find?_outcome (ty : DfType) (number : ℤ) (members : List (Option ℤ)) :
    (members.map (ty.outcome number)).find? (· != some false) = some (some true) ↔
      (members.find? (ty.decides number)).join.isSome = true := by
  have decides : ((· != some false) ∘ ty.outcome number) = ty.decides number := by
    funext member
    rcases member with _ | right
    · rfl
    · simp only [Function.comp_apply, DfType.outcome, DfType.decides, map_some, all_some]
      cases number == ty.coerced right <;> rfl
  rw [find?_map, decides]
  rcases found : members.find? (ty.decides number) with _ | _ | right
  · simp
  · simp [DfType.outcome]
  · have ends := find?_some found
    have matched : (number == ty.coerced right) = true := ends
    simp [DfType.outcome, matched]

theorem eval_members {lowered : List Expr}
    (lowers : Forall₂ (fun expr lowered => lower ctx expr = .ok lowered) exprs lowered)
    (exact : ∀ expr ∈ exprs, Exact ctx record expr) :
    Forall₂ (fun lowered member => ∃ value, lowered.eval record = .ok value ∧
      value.toInt? = member) lowered (exprs.map (AstExpr.meaning ctx record)) := by
  induction lowers with
  | nil => exact .nil
  | cons lowers _ ih =>
    obtain ⟨⟨value, evaluated, number⟩, rest⟩ := forall_mem_cons.mp exact
    rw [evaluate_of_lower lowers] at evaluated
    exact .cons ⟨value, evaluated, number⟩ (ih rest)

/-- The chain of comparisons with a number is SQL's membership when no
coercion fails and the member that ends the chain tells the truth. -/
theorem chain_eq_membership_iff :
    chain ty (some number) (some false) members = some (membership (some number) members) ↔
      (∀ member ∈ members, ∀ right ∈ member, ty.Holds right) ∧
        ((members.find? (ty.decides number)).join.isSome = true ↔ some number ∈ members) := by
  have unknowns : none ∈ members.map (ty.outcome number) ↔
      none ∈ members.map (compared (· == ·) (some number)) := by
    simp [DfType.outcome, compared]
  have found : some true ∈ members.map (compared (· == ·) (some number)) ↔
      some number ∈ members := by
    simp only [List.mem_map, compared, bind_some, map_eq_some_iff, beq_iff_eq]
    constructor
    · rintro ⟨_, mem, right, rfl, rfl⟩
      exact mem
    · exact fun mem => ⟨some number, mem, number, rfl, rfl⟩
  have agrees := Truth.foldl_seqOr_eq_anyOf_iff unknowns
  rw [find?_outcome, found] at agrees
  rw [← agrees]
  constructor
  · intro computed
    have holds := holds_of_chain computed
    rw [chain_of_holds holds] at computed
    exact ⟨holds, some.inj computed⟩
  · rintro ⟨holds, same⟩
    rw [chain_of_holds holds, same]
    rfl

/-- An `IN` list over exact members is exact just if it is plain. -/
theorem exact_isIn_iff (resolved : (AstExpr.isIn lhs exprs negated).Resolved ctx record)
    (leftExact : Exact ctx record lhs) (membersExact : ∀ expr ∈ exprs, Exact ctx record expr) :
    Exact ctx record (.isIn lhs exprs negated) ↔
      (AstExpr.isIn lhs exprs negated).Plain ctx record := by
  rcases exprs with _ | ⟨first, exprs⟩
  · -- The constants of the empty list are NULL and true, in place of true and false.
    refine iff_of_false ?_ fun plain => plain.1 rfl
    rintro ⟨value, evaluated, number⟩
    cases negated
    · obtain rfl := ok.inj evaluated
      have falseIsTrue : some (1 : ℤ) = some 0 := number
      exact absurd falseIsTrue (by decide)
    · obtain rfl := ok.inj evaluated
      have nullIsTrue : none = some (1 : ℤ) := number
      cases nullIsTrue
  obtain ⟨left, lowered, results, lowerLeft, leftTy, lowerMembers, lowers⟩ :=
    lower_isIn resolved
  obtain ⟨leftVal, evaluated, number⟩ := leftExact
  have known : left.ty = .unknown → leftVal = .none := fun unknown =>
    evaluate_of_unknown resolved.1 (leftTy.symm.trans unknown) evaluated
  rw [evaluate_of_lower lowerLeft] at evaluated
  have outcome : ∀ value, evaluate ctx record (.isIn lhs (first :: exprs) negated) = .ok value ↔
      ∃ truth, chain left.ty leftVal.toInt? (some false)
        ((first :: exprs).map (AstExpr.meaning ctx record)) = some truth ∧
        ofTruth (signed negated truth) = value := by
    intro value
    rw [evaluate_of_lower lowers]
    exact eval_inList evaluated known (eval_members lowerMembers membersExact) value
  rw [exact_iff_of_ok_iff negated _ outcome (by rw [AstExpr.meaning, meanings_eq_map]), leftTy]
  rw [AstExpr.Plain, ← number]
  rcases leftVal with _ | integer
  · have null : chain (lhs.ty ctx) none (some false)
        ((first :: exprs).map (AstExpr.meaning ctx record)) = some none := by
      cases first.meaning ctx record <;> exact chain_of_null
    refine iff_of_true ?_ ⟨cons_ne_nil _ _, fun _ absent => nomatch absent⟩
    exact null.trans (congrArg some membership_null.symm)
  · rw [toInt?_value, chain_eq_membership_iff, List.forall_mem_map, List.mem_map]
    simp

end

/-! ## Every condition -/

/-- Facts about the parts of a condition are compared at its root, where those
about its operands agree. -/
theorem and_iff_and_of_operands {right plain operandsRight operandsPlain : Prop}
    (operands : operandsRight ↔ operandsPlain) (root : operandsRight → (right ↔ plain)) :
    (right ∧ operandsRight) ↔ plain ∧ operandsPlain := by
  rw [← operands]
  exact and_congr_left root

theorem self_mem_parts : condition ∈ condition.parts := by
  cases condition <;> simp [AstExpr.parts]

/-- On every record and for every condition over its columns, the condition and
all it is built from are evaluated to SQL's three-valued result exactly when
each of them is plain. -/
theorem parts_right_iff (context : LowerContext C) (record : List Value) (condition : AstExpr C)
    (resolved : condition.Resolved context record) :
    (∀ part ∈ condition.parts, Right context record part) ↔
      ∀ part ∈ condition.parts, part.Plain context record := by
  induction condition using AstExpr.induct with
  | literal lit =>
    rw [AstExpr.parts, List.forall_mem_singleton, List.forall_mem_singleton]
    exact iff_of_true ((right_iff_exact resolved).mpr (evaluate_literal)) trivial
  | column col =>
    rw [AstExpr.parts, List.forall_mem_singleton, List.forall_mem_singleton]
    exact iff_of_true ((right_iff_exact resolved).mpr (evaluate_column resolved)) trivial
  | binaryOp lhs op rhs ofLhs ofRhs =>
    have leftResolved : lhs.Resolved context record := resolved.1
    have rightResolved : rhs.Resolved context record := resolved.2
    simp only [AstExpr.parts, List.forall_mem_cons, List.forall_mem_append]
    refine and_iff_and_of_operands (and_congr (ofLhs leftResolved) (ofRhs rightResolved)) ?_
    rintro ⟨left, right⟩
    rw [right_iff_exact resolved]
    exact exact_binaryOp_iff op leftResolved rightResolved
      ((right_iff_exact leftResolved).mp (left lhs (self_mem_parts)))
      ((right_iff_exact rightResolved).mp (right rhs (self_mem_parts)))
  | not rhs ofRhs =>
    have rightResolved : rhs.Resolved context record := resolved
    simp only [AstExpr.parts, List.forall_mem_cons]
    refine and_iff_and_of_operands (ofRhs rightResolved) fun operand => ?_
    rw [right_iff_exact resolved]
    exact exact_not_iff rightResolved
      ((right_iff_exact rightResolved).mp (operand rhs (self_mem_parts)))
  | isIn lhs exprs negated ofLhs ofExprs =>
    have members := allResolved_iff.mp resolved.2
    simp only [AstExpr.parts, List.forall_mem_cons, List.forall_mem_append, allParts_eq_flatMap,
      List.forall_mem_flatMap]
    refine and_iff_and_of_operands (and_congr (ofLhs resolved.1) (forall₂_congr fun expr present =>
      ofExprs expr present (members expr present))) ?_
    rintro ⟨left, right⟩
    rw [right_iff_exact resolved]
    exact exact_isIn_iff resolved
      ((right_iff_exact resolved.1).mp (left lhs (self_mem_parts)))
      fun expr present => (right_iff_exact (members expr present)).mp
        (right expr present expr (self_mem_parts))

/-- Columns of type `int`, named by their position. -/
def integerColumns : LowerContext Nat := fun col => .ok (col, .int)

/-- `a IN (1, NULL) OR NOT (b < 3)`, on a record where `a` is 1 and `b` is NULL. -/
theorem parts_right_found :
    let condition : AstExpr Nat := .binaryOp
      (.isIn (.column 0) [.literal (.integer 1), .literal .null] false) .or
      (.not (.binaryOp (.column 1) .less (.literal (.integer 3))))
    condition.Resolved integerColumns [.value (.int 1), .none] ∧
      ∀ part ∈ condition.parts, Right integerColumns [.value (.int 1), .none] part := by
  intro condition
  have resolved : condition.Resolved integerColumns [.value (.int 1), .none] := by
    simp [condition, AstExpr.Resolved, AllResolved, integerColumns]
  refine ⟨resolved, (parts_right_iff integerColumns _ condition resolved).mpr ?_⟩
  simp [condition, AstExpr.parts, allParts, AstExpr.Plain]
  decide

theorem not_right_of_evaluate {ctx : LowerContext C} {record : List Value} {value : Value}
    (evaluated : evaluate ctx record condition = .ok value)
    (differs : value.truth ≠ truthOf (condition.meaning ctx record)) :
    ¬Right ctx record condition := by
  rw [right_iff]
  rintro ⟨other, same, agrees⟩
  obtain rfl := ok.inj (evaluated.symm.trans same)
  exact differs agrees

/-- `a AND 1 = 2` is false and `a OR 1 = 1` is true when `a` is NULL, `NOT b` is
false when `b` is 5, `b IN ()` is false and `b NOT IN ()` is true: they are
evaluated to NULL, NULL, true, true and NULL. -/
theorem conditions_not_right : let record : List Value := [.none, .value (.int 5)]
    let one : AstExpr Nat := .literal (.integer 1)
    let two : AstExpr Nat := .literal (.integer 2)
    ¬Right integerColumns record (.binaryOp (.column 0) .and (.binaryOp one .equal two)) ∧
    ¬Right integerColumns record (.binaryOp (.column 0) .or (.binaryOp one .equal one)) ∧
    ¬Right integerColumns record (.not (.column 1)) ∧
    ¬Right integerColumns record (.isIn (.column 1) [] false) ∧
    ¬Right integerColumns record (.isIn (.column 1) [] true) := by
  refine ⟨?_, ?_, ?_, ?_, ?_⟩
  · exact not_right_of_evaluate rfl (by decide)
  · exact not_right_of_evaluate rfl (by decide)
  · exact not_right_of_evaluate rfl (by decide)
  · exact not_right_of_evaluate rfl (by decide)
  · exact not_right_of_evaluate rfl (by decide)

end ReadySet.DataflowExpression
