import ReadySet.Library.Kleene
import ReadySet.Dataflow.Processing

/-!
Owns dataflow expressions over integers and NULL: their values and types, how a
value is coerced to a type (`DfValue::coerce_to`), the operators
(`eval_binary_op`) and the evaluation of an expression on a record
(`Expr::eval`).

`evalBinaryOp_and`, `evalBinaryOp_or` and `evalBinaryOp_equal` say what the
operators compute. Does not own the values and types of other kinds, nor the
operators and functions on them.
-/

namespace ReadySet.DataflowExpression

open Data Dataflow Library

/-! ## Values -/

/-- `DfValue::Int` and `DfValue::UnsignedInt`. -/
inductive Integer where
  | int (number : Int64)
  | unsignedInt (number : UInt64)
deriving DecidableEq, Repr

/-- `i128::try_from`. -/
def Integer.toInt : Integer → ℤ
  | .int number => number.toInt
  | .unsignedInt number => number.toNat

abbrev Value := DfValue Integer

namespace Value

/-- The number a value stands for; `none` for NULL. -/
def toInt? : Value → Option ℤ
  | .none => none
  | .value integer => some integer.toInt

/-- `DfValue::from` on a truth value. -/
def ofBool (truth : Bool) : Value := .value (.unsignedInt (if truth then 1 else 0))

/-- `DfValue::eq`. -/
def same : Value → Value → Bool
  | .none, .none => true
  | .value left, .value right => left.toInt == right.toInt
  | _, _ => false

def isTruthy : Value → Bool
  | .none => false
  | .value integer => integer.toInt != 0

end Value

/-! ## Types -/

/-- The types of NULL, booleans and integers. -/
inductive DfType where
  | unknown
  | bool
  | int
  | unsignedInt
  | bigInt
  | unsignedBigInt
  | tinyInt
  | unsignedTinyInt
  | smallInt
  | unsignedSmallInt
deriving DecidableEq, Repr

/-- `DfType::fmt`. -/
def DfType.toString : DfType → String
  | .unknown => "Unknown"
  | .bool => "Bool"
  | .int => "Int"
  | .unsignedInt => "UnsignedInt"
  | .bigInt => "BigInt"
  | .unsignedBigInt => "UnsignedBigInt"
  | .tinyInt => "TinyInt"
  | .unsignedTinyInt => "UnsignedTinyInt"
  | .smallInt => "SmallInt"
  | .unsignedSmallInt => "UnsignedSmallInt"

def Value.inferDataflowType : Value → DfType
  | .none => .unknown
  | .value (.int _) => .bigInt
  | .value (.unsignedInt _) => .unsignedBigInt

/-- `iN::try_from`, and the value it gives. -/
def tryFromSigned (bits : Nat) (err : ReadySetError) (number : ℤ) : ReadySetResult Value :=
  if -2 ^ (bits - 1) ≤ number ∧ number < 2 ^ (bits - 1) then
    .ok (.value (.int (Int64.ofInt number)))
  else .error err

/-- `uN::try_from`, and the value it gives. -/
def tryFromUnsigned (bits : Nat) (err : ReadySetError) (number : ℤ) : ReadySetResult Value :=
  if 0 ≤ number ∧ number < 2 ^ bits then
    .ok (.value (.unsignedInt (UInt64.ofNat number.toNat)))
  else .error err

def coerceInteger (val : Integer) (toTy fromTy : DfType) : ReadySetResult Value :=
  let err := ReadySetError.dfValueConversionError fromTy.toString toTy.toString "out of bounds"
  match toTy with
  | .bool => .ok (Value.ofBool (val.toInt != 0))
  | .tinyInt => tryFromSigned 8 err val.toInt
  | .unsignedTinyInt => tryFromUnsigned 8 err val.toInt
  | .smallInt => tryFromSigned 16 err val.toInt
  | .unsignedSmallInt => tryFromUnsigned 16 err val.toInt
  | .int => tryFromSigned 32 err val.toInt
  | .unsignedInt => tryFromUnsigned 32 err val.toInt
  | .bigInt => tryFromSigned 64 err val.toInt
  | .unsignedBigInt => tryFromUnsigned 64 err val.toInt
  | .unknown =>
    .error (.dfValueConversionError fromTy.toString toTy.toString "Not allowed")

def Value.coerceTo (value : Value) (toTy fromTy : DfType) : ReadySetResult Value :=
  if toTy = .unknown ∧ fromTy = .unknown then .ok value
  else match value with
    | .none => .ok .none
    | .value integer =>
      if Value.inferDataflowType (.value integer) = toTy then .ok (.value integer)
      else coerceInteger integer toTy fromTy

/-! ## Operators -/

/-- The operators of conditions. `BinaryOperator::from_sql_op` gives each
operator of SQL the one of the same name. -/
inductive BinaryOperator where
  | and
  | or
  | equal
  | notEqual
  | greater
  | greaterOrEqual
  | less
  | lessOrEqual
  | is
  | isNot
deriving DecidableEq, Repr

def BinaryOperator.outputType : BinaryOperator → DfType → DfType
  | .and, leftType => leftType
  | .or, leftType => leftType
  | _, _ => .bool

def nonNull (value : Value) (next : Integer → ReadySetResult Value) : ReadySetResult Value :=
  match value with
  | .none => .ok .none
  | .value integer => next integer

/-- The arms of `eval_binary_op` that compare two integers. -/
def compareIntegers (test : ℤ → ℤ → Bool) (left right : Value) : ReadySetResult Value :=
  nonNull left fun left => nonNull right fun right =>
    .ok (Value.ofBool (test left.toInt right.toInt))

/-- The arms of `eval_binary_op` for `=` and `!=`: the right side is coerced to
the type of the left one. -/
def compareCoerced (negated : Bool) (left right : Value × DfType) : ReadySetResult Value :=
  nonNull left.1 fun leftInteger => nonNull right.1 fun rightInteger => do
    let coerced ← Value.coerceTo (.value rightInteger) left.2 right.2
    pure (Value.ofBool (Value.same (.value leftInteger) coerced != negated))

def evalBinaryOp : BinaryOperator → Value × DfType → Value × DfType → ReadySetResult Value
  | .and, left, right =>
    nonNull left.1 fun leftInteger =>
      if Value.isTruthy (.value leftInteger) then
        nonNull right.1 fun rightInteger =>
          .ok (Value.ofBool (Value.isTruthy (.value rightInteger)))
      else .ok (Value.ofBool false)
  | .or, left, right =>
    nonNull left.1 fun leftInteger =>
      if Value.isTruthy (.value leftInteger) then .ok (Value.ofBool true)
      else
        nonNull right.1 fun rightInteger =>
          .ok (Value.ofBool (Value.isTruthy (.value rightInteger)))
  | .equal, left, right => compareCoerced false left right
  | .notEqual, left, right => compareCoerced true left right
  | .greater, left, right => compareIntegers (fun left right => left > right) left.1 right.1
  | .greaterOrEqual, left, right => compareIntegers (fun left right => left ≥ right) left.1 right.1
  | .less, left, right => compareIntegers (fun left right => left < right) left.1 right.1
  | .lessOrEqual, left, right => compareIntegers (fun left right => left ≤ right) left.1 right.1
  | .is, left, right => .ok (Value.ofBool (left.1.same right.1))
  | .isNot, left, right => .ok (Value.ofBool (!left.1.same right.1))

/-! ## Expressions -/

inductive Expr where
  | column (index : Nat) (ty : DfType)
  | literal (val : Value) (ty : DfType)
  | op (operator : BinaryOperator) (left right : Expr) (ty : DfType)
deriving DecidableEq, Repr

def Expr.ty : Expr → DfType
  | .column _ ty => ty
  | .literal _ ty => ty
  | .op _ _ _ ty => ty

def Expr.eval (record : List Value) : Expr → ReadySetResult Value
  | .column index _ =>
    match record[index]? with
    | some value => .ok value
    | none => .error (.projectExprInvalidColumnIndex index)
  | .literal val _ => .ok val
  | .op operator left right _ => do
      let leftVal ← left.eval record
      let rightVal ← right.eval record
      evalBinaryOp operator (leftVal, left.ty) (rightVal, right.ty)

/-! ## What the operators compute -/

namespace Value

/-- A value as a truth value: NULL is unknown, 0 is false. -/
def truth (value : Value) : Truth := value.toInt?.map (· != 0)

def ofTruth : Truth → Value
  | none => .none
  | some truth => ofBool truth

@[simp] theorem toInt?_none : toInt? .none = none := rfl

@[simp] theorem toInt?_value (integer : Integer) : toInt? (.value integer) = some integer.toInt :=
  rfl

@[simp] theorem truth_ofTruth (truth : Truth) : (ofTruth truth).truth = truth := by
  rcases truth with _ | _ | _ <;> rfl

theorem truth_value (integer : Integer) :
    truth (.value integer) = some (isTruthy (.value integer)) := rfl

theorem same_iff {left right : Value} : left.same right = true ↔ left.toInt? = right.toInt? := by
  cases left <;> cases right <;> simp [same]

end Value

open Value (coerceTo isTruthy ofTruth same)

theorem evalBinaryOp_and (left right : Value × DfType) :
    evalBinaryOp .and left right = .ok (ofTruth (Truth.seqAnd left.1.truth right.1.truth)) := by
  obtain ⟨_ | leftInteger, leftTy⟩ := left
  · rfl
  rw [Value.truth_value]
  simp only [evalBinaryOp, nonNull]
  cases isTruthy (.value leftInteger) with
  | false => rfl
  | true =>
    obtain ⟨_ | rightInteger, rightTy⟩ := right
    · rfl
    rfl

theorem evalBinaryOp_or (left right : Value × DfType) :
    evalBinaryOp .or left right = .ok (ofTruth (Truth.seqOr left.1.truth right.1.truth)) := by
  obtain ⟨_ | leftInteger, leftTy⟩ := left
  · rfl
  rw [Value.truth_value]
  simp only [evalBinaryOp, nonNull]
  cases isTruthy (.value leftInteger) with
  | true => rfl
  | false =>
    obtain ⟨_ | rightInteger, rightTy⟩ := right
    · rfl
    rfl

/-- A comparison of numbers, unknown as soon as one of them is NULL. -/
def compared (test : ℤ → ℤ → Bool) (left right : Option ℤ) : Truth :=
  left.bind fun left => right.map fun right => test left right

theorem compareIntegers_eq (test : ℤ → ℤ → Bool) (left right : Value) :
    compareIntegers test left right
      = .ok (ofTruth (compared test left.toInt? right.toInt?)) := by
  cases left <;> cases right <;> rfl

namespace DfType

/-- The numbers that can be coerced to a type. -/
def Holds : DfType → ℤ → Prop
  | .unknown, _ => False
  | .bool, _ => True
  | .tinyInt, number => -2 ^ 7 ≤ number ∧ number < 2 ^ 7
  | .unsignedTinyInt, number => 0 ≤ number ∧ number < 2 ^ 8
  | .smallInt, number => -2 ^ 15 ≤ number ∧ number < 2 ^ 15
  | .unsignedSmallInt, number => 0 ≤ number ∧ number < 2 ^ 16
  | .int, number => -2 ^ 31 ≤ number ∧ number < 2 ^ 31
  | .unsignedInt, number => 0 ≤ number ∧ number < 2 ^ 32
  | .bigInt, number => -2 ^ 63 ≤ number ∧ number < 2 ^ 63
  | .unsignedBigInt, number => 0 ≤ number ∧ number < 2 ^ 64

instance (ty : DfType) (number : ℤ) : Decidable (ty.Holds number) := by
  cases ty <;> unfold Holds <;> infer_instance

/-- What a number becomes when it is coerced to a type. -/
def coerced : DfType → ℤ → ℤ
  | .bool, number => if number = 0 then 0 else 1
  | _, number => number

end DfType

section

variable {bits : Nat} (small : bits ≤ 64) (err : ReadySetError) {number : ℤ}

include small

theorem tryFromSigned_of_holds (holds : -2 ^ (bits - 1) ≤ number ∧ number < 2 ^ (bits - 1)) :
    ∃ integer, tryFromSigned bits err number = .ok (.value integer) ∧ integer.toInt = number := by
  refine ⟨_, if_pos holds, ?_⟩
  have widest : (2 : ℤ) ^ (bits - 1) ≤ 2 ^ 63 := pow_le_pow_right₀ (by decide) (by omega)
  exact Int64.toInt_ofInt_of_le (by omega) (by omega)

theorem tryFromUnsigned_of_holds (holds : 0 ≤ number ∧ number < 2 ^ bits) :
    ∃ integer, tryFromUnsigned bits err number = .ok (.value integer) ∧ integer.toInt = number := by
  refine ⟨_, if_pos holds, ?_⟩
  have widest : (2 : ℤ) ^ bits ≤ 2 ^ 64 := pow_le_pow_right₀ (by decide) small
  have fits : number.toNat < 2 ^ 64 := by omega
  change ((UInt64.ofNat number.toNat).toNat : ℤ) = number
  rw [UInt64.toNat_ofNat_of_lt' fits]
  omega

end

theorem coerceInteger_of_holds {val : Integer} (toTy fromTy : DfType)
    (holds : toTy.Holds val.toInt) :
    ∃ integer, coerceInteger val toTy fromTy = .ok (.value integer) ∧
      integer.toInt = toTy.coerced val.toInt := by
  cases toTy with
  | unknown => exact holds.elim
  | bool =>
    refine ⟨_, rfl, ?_⟩
    by_cases zero : val.toInt = 0
    · simp only [zero]
      rfl
    · have nonzero : (val.toInt != 0) = true := by simpa using zero
      simp only [nonzero, DfType.coerced, if_neg zero]
      rfl
  | tinyInt | smallInt | int | bigInt => exact tryFromSigned_of_holds (by decide) _ holds
  | unsignedTinyInt | unsignedSmallInt => exact tryFromUnsigned_of_holds (by decide) _ holds
  | unsignedInt | unsignedBigInt => exact tryFromUnsigned_of_holds (by decide) _ holds

theorem coerceInteger_of_not_holds {val : Integer} (toTy fromTy : DfType)
    (outside : ¬toTy.Holds val.toInt) : ∃ err, coerceInteger val toTy fromTy = .error err := by
  cases toTy with
  | bool => exact absurd trivial outside
  | unknown => exact ⟨_, rfl⟩
  | _ => exact ⟨_, if_neg outside⟩

section

variable (integer : Integer)

theorem inferDataflowType_holds :
    (Value.inferDataflowType (.value integer)).Holds integer.toInt := by
  cases integer with
  | int number => exact ⟨number.le_toInt, number.toInt_lt⟩
  | unsignedInt number =>
    have bounded : (number.toNat : ℤ) < 2 ^ 64 := by exact_mod_cast number.toNat_lt
    exact ⟨Int.natCast_nonneg _, bounded⟩

theorem coerceTo_of_holds (toTy fromTy : DfType) (holds : toTy.Holds integer.toInt) :
    ∃ result, coerceTo (.value integer) toTy fromTy = .ok (.value result) ∧
      result.toInt = toTy.coerced integer.toInt := by
  have known : ¬(toTy = .unknown ∧ fromTy = .unknown) := by
    rintro ⟨rfl, _⟩
    exact holds
  rw [coerceTo, if_neg known]
  by_cases inferred : Value.inferDataflowType (.value integer) = toTy
  · subst inferred
    exact ⟨integer, if_pos rfl, by cases integer <;> rfl⟩
  · simp only [if_neg inferred]
    exact coerceInteger_of_holds toTy fromTy holds

theorem coerceTo_of_not_holds {toTy : DfType} (fromTy : DfType) (known : toTy ≠ .unknown)
    (outside : ¬toTy.Holds integer.toInt) :
    ∃ err, coerceTo (.value integer) toTy fromTy = .error err := by
  rw [coerceTo, if_neg fun both => known both.1]
  have other : Value.inferDataflowType (.value integer) ≠ toTy := by
    rintro rfl
    exact outside (inferDataflowType_holds integer)
  simp only [if_neg other]
  exact coerceInteger_of_not_holds toTy fromTy outside

end

/-- The comparison for equality of a number with one that is coerced to the
type of the first; `none` where the coercion fails. -/
def coercedEqual (ty : DfType) : Option ℤ → Option ℤ → Option Truth
  | some left, some right =>
    if ty.Holds right then some (some (left == ty.coerced right)) else none
  | _, _ => some none

/-- A truth value, or its negation. -/
def signed (negated : Bool) (truth : Truth) : Truth := if negated then truth.not else truth

/-- `=` and `!=` compare with the coerced right side, and fail where it cannot
be coerced. -/
theorem compareCoerced_eq_ok_iff (negated : Bool) (left right : Value × DfType) (result : Value)
    (known : left.2 = .unknown → left.1 = .none) :
    compareCoerced negated left right = .ok result ↔
      ∃ truth, coercedEqual left.2 left.1.toInt? right.1.toInt? = some truth ∧
        ofTruth (signed negated truth) = result := by
  obtain ⟨leftVal, leftTy⟩ := left
  obtain ⟨rightVal, rightTy⟩ := right
  have unknown : compareCoerced negated (.none, leftTy) (rightVal, rightTy) = .ok .none := rfl
  rcases leftVal with _ | leftInteger
  · cases negated <;> simp [unknown, coercedEqual, signed, Truth.not, ofTruth]
  rcases rightVal with _ | rightInteger
  · have unknownRight :
        compareCoerced negated (.value leftInteger, leftTy) (.none, rightTy) = .ok .none := rfl
    cases negated <;> simp [unknownRight, coercedEqual, signed, Truth.not, ofTruth]
  have typed : leftTy ≠ .unknown := fun unknownTy => nomatch known unknownTy
  by_cases holds : leftTy.Holds rightInteger.toInt
  · obtain ⟨coerced, coercion, number⟩ := coerceTo_of_holds rightInteger leftTy rightTy holds
    have ran : compareCoerced negated (.value leftInteger, leftTy) (.value rightInteger, rightTy)
        = .ok (Value.ofBool (same (.value leftInteger) (.value coerced) != negated)) := by
      simp only [compareCoerced, nonNull, coercion]
      rfl
    rw [ran, same, number]
    simp only [coercedEqual, Value.toInt?_value, if_pos holds]
    cases negated <;> simp [signed, Truth.not, ofTruth]
  · obtain ⟨err, failed⟩ := coerceTo_of_not_holds rightInteger rightTy typed holds
    have ran : compareCoerced negated (.value leftInteger, leftTy) (.value rightInteger, rightTy)
        = .error err := by
      simp only [compareCoerced, nonNull, failed]
      rfl
    simp [ran, coercedEqual, if_neg holds]

end ReadySet.DataflowExpression
