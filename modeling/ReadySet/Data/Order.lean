import ReadySet.Data.Written

/-!
Owns the order of the values of base tables (`DfValue::cmp`) and of keys, and
that it is one on the values of a column as they stand in the keys of an index:
NULL, then the values of the column's kind, then `Max`.

Does not own comparisons of values of two kinds, which no column has.
-/

namespace ReadySet.Data

open Library
open Ordering (byKey)

variable {X : Type} {env : Externals X}

/-! ## The order of the source -/

/-- What `f32::total_cmp` and `f64::total_cmp` compare: the bits as a signed
number, those of a negative one flipped below the sign. -/
def totalKey {width : Nat} (bits : BitVec width) : Int :=
  (bits ^^^ ((bits.sshiftRight (width - 1)) >>> 1)).toInt

/-- `DfValue::cmp` on values that are not NULL. -/
def Datum.cmp (env : Externals X) : Datum X → Datum X → Ordering
  | .max, .max => .eq
  | .max, _ => .gt
  | _, .max => .lt
  | .int left, .int right => compare left right
  | .float left, .float right => compare (totalKey left) (totalKey right)
  | .double left, .double right => compare (totalKey left) (totalKey right)
  | .text collation left, .text _ right => collation.compareStrs env left right
  | .timestampTz seconds nanos _, .timestampTz otherSeconds otherNanos _ =>
    (compare seconds.toInt otherSeconds.toInt).then (compare nanos.toNat otherNanos.toNat)
  | .time left, .time right =>
    (compare (timeParts left).1.toInt (timeParts right).1.toInt).then
      (compare (timeParts left).2 (timeParts right).2)
  | .byteArray left, .byteArray right => Bytes.cmp left right
  | .foreign kind left, .foreign other right =>
    if kind = other then env.cmpForeign kind left right
    else env.cmpAcross (.foreign kind left) (.foreign other right)
  | left, right => env.cmpAcross left right

/-- `DfValue::cmp`. -/
def DfValue.compareIn (env : Externals X) : DfValue (Datum X) → DfValue (Datum X) → Ordering
  | .none, .none => .eq
  | .none, .value _ => .lt
  | .value _, .none => .gt
  | .value left, .value right => left.cmp env right

/-- `Ord` on keys. -/
def Key.compareIn (env : Externals X) : Key (Datum X) → Key (Datum X) → Ordering :=
  List.compareLex (DfValue.compareIn env)

/-- The other crates' types are ordered. -/
structure Externals.Ordered (env : Externals X) : Prop where
  foreign : ∀ kind, Std.TransCmp (env.cmpForeign kind)

/-! ## The order of one column -/

/-- A value of the kind of a column, NULL or the upper bound of all values. -/
def DfValue.Bounded (kind : Kind) (cell : DfValue (Datum X)) : Prop :=
  cell.Typed kind ∨ cell = .value .max

/-- NULL, the values, and `Max`. -/
def DfValue.position : DfValue (Datum X) → Nat
  | .none => 0
  | .value .max => 2
  | .value _ => 1

/-- The number a value holds, for the kinds that hold one. -/
def DfValue.number : DfValue (Datum X) → Int
  | .value (.int number) => number
  | .value (.float bits) => totalKey bits
  | .value (.double bits) => totalKey bits
  | .value (.timestampTz seconds _ _) => seconds.toInt
  | .value (.time nanos) => (timeParts nanos).1.toInt
  | _ => 0

/-- What a value holds below its number. -/
def DfValue.fraction : DfValue (Datum X) → Nat
  | .value (.timestampTz _ nanos _) => nanos.toNat
  | .value (.time nanos) => (timeParts nanos).2
  | _ => 0

def DfValue.bytes : DfValue (Datum X) → Bytes
  | .value (.text _ bytes) => bytes
  | .value (.byteArray bytes) => bytes
  | _ => []

def DfValue.foreign : DfValue (Datum X) → List X
  | .value (.foreign _ datum) => [datum]
  | _ => []

/-- The values of one kind by what they hold. -/
def DfValue.payloadCmp (env : Externals X) :
    Kind → DfValue (Datum X) → DfValue (Datum X) → Ordering
  | .int | .float | .double | .max => Ordering.byKey DfValue.number compare
  | .timestampTz | .time =>
    compareLex (Ordering.byKey DfValue.number compare) (Ordering.byKey DfValue.fraction compare)
  | .text | .byteArray => Ordering.byKey DfValue.bytes Bytes.cmp
  | .foreign kind => Ordering.byKey DfValue.foreign (List.compareLex (env.cmpForeign kind))

def DfValue.cmpWithin (env : Externals X) (kind : Kind) :
    DfValue (Datum X) → DfValue (Datum X) → Ordering :=
  compareLex (Ordering.byKey DfValue.position compare) (DfValue.payloadCmp env kind)

theorem Externals.Ordered.transCmp (ordered : env.Ordered)
    (kind : Kind) : Std.TransCmp (DfValue.cmpWithin env kind) := by
  have payload : Std.TransCmp (DfValue.payloadCmp env kind) := by
    cases kind with
    | foreign kind =>
      have := ordered.foreign kind
      exact inferInstanceAs (Std.TransCmp
        (byKey DfValue.foreign (List.compareLex (env.cmpForeign kind))))
    | timestampTz | time =>
      exact inferInstanceAs (Std.TransCmp (compareLex (byKey DfValue.number compare)
        (byKey DfValue.fraction compare)))
    | text | byteArray =>
      exact inferInstanceAs (Std.TransCmp (byKey DfValue.bytes Bytes.cmp))
    | _ => exact inferInstanceAs (Std.TransCmp (byKey DfValue.number compare))
  exact inferInstanceAs (Std.TransCmp
    (compareLex (byKey DfValue.position compare) (DfValue.payloadCmp env kind)))

section

variable {kind : Kind} {datum : Datum X}

/-- Within a kind the order of values is that of what they hold. -/
theorem Datum.cmp_eq_payloadCmp {left right : Datum X} (isLeft : left.kind = kind)
    (isRight : right.kind = kind)
    (plain : ∀ collation bytes, left = .text collation bytes → collation = .utf8) :
    left.cmp env right = DfValue.payloadCmp env kind (.value left) (.value right) := by
  subst isLeft
  cases left with
  | foreign leftKind leftDatum =>
    cases right with
    | foreign rightKind rightDatum =>
      obtain rfl : rightKind = leftKind := by simpa [Datum.kind] using isRight
      rw [Datum.cmp, if_pos rfl]
      change _ = List.compareLex (env.cmpForeign rightKind) [leftDatum] [rightDatum]
      rw [List.compareLex_cons_cons, List.compareLex_nil_nil, Ordering.then_eq]
    | _ => simp [Datum.kind] at isRight
  | text collation bytes =>
    cases right with
    | text other otherBytes =>
      obtain rfl := plain collation bytes rfl
      rfl
    | _ => simp [Datum.kind] at isRight
  | _ =>
    cases right <;> first
      | rfl
      | simp [Datum.kind] at isRight

/-- A value as keys hold it is of the same kind, and a text has no collation of
its own. -/
theorem transform_value (env : Externals X) (datum : Datum X) :
    ∃ held : Datum X, (DfValue.value datum).transformForSerializedKey env = .value held ∧
      held.kind = datum.kind ∧
      ∀ collation bytes, held = .text collation bytes → collation = .utf8 := by
  cases datum with
  | text collation bytes =>
    refine ⟨_, transform_text collation bytes, rfl, ?_⟩
    rintro other otherBytes same
    exact (Datum.text.inj same).1.symm
  | _ => exact ⟨_, rfl, rfl, by simp⟩

theorem Datum.eq_max (isMax : datum.kind = .max) : datum = .max := by
  cases datum with
  | max => rfl
  | _ => cases isMax

theorem DfValue.Bounded.kind_eq (bounded : DfValue.Bounded kind (.value datum))
    (other : datum.kind ≠ .max) : datum.kind = kind := by
  rcases bounded with typed | isMax
  · exact typed
  · rw [DfValue.value.inj isMax] at other
    exact absurd rfl other

/-- On the values of a column, as keys hold them, `DfValue::cmp` is the order of
its kind. -/
theorem DfValue.compareIn_transform {left right : DfValue (Datum X)}
    (isLeft : left.Bounded kind) (isRight : right.Bounded kind) :
    DfValue.compareIn env (left.transformForSerializedKey env)
        (right.transformForSerializedKey env) =
      DfValue.cmpWithin env kind (left.transformForSerializedKey env)
        (right.transformForSerializedKey env) := by
  cases left with
  | none =>
    cases right with
    | none => cases kind <;> rfl
    | value right =>
      obtain ⟨held, same, _, _⟩ := transform_value env right
      rw [same]
      cases held <;> rfl
  | value left =>
    obtain ⟨heldLeft, sameLeft, kindLeft, plain⟩ := transform_value env left
    cases right with
    | none =>
      rw [sameLeft]
      cases heldLeft <;> rfl
    | value right =>
      obtain ⟨heldRight, sameRight, kindRight, _⟩ := transform_value env right
      rw [sameLeft, sameRight]
      by_cases maxLeft : heldLeft.kind = .max
      · obtain rfl := Datum.eq_max maxLeft
        cases heldRight with
        | max => cases kind <;> rfl
        | _ => rfl
      · by_cases maxRight : heldRight.kind = .max
        · obtain rfl := Datum.eq_max maxRight
          cases heldLeft with
          | max => exact absurd rfl maxLeft
          | _ => rfl
        · have typedLeft := DfValue.Bounded.kind_eq isLeft (kindLeft ▸ maxLeft)
          have typedRight := DfValue.Bounded.kind_eq isRight (kindRight ▸ maxRight)
          have payload : heldLeft.cmp env heldRight = _ :=
            Datum.cmp_eq_payloadCmp (kindLeft.trans typedLeft) (kindRight.trans typedRight) plain
          refine payload.trans ?_
          have middle : ∀ held : Datum X, held.kind ≠ .max →
              DfValue.position (.value held) = 1 := by
            intro held other
            cases held with
            | max => exact absurd rfl other
            | _ => rfl
          rw [DfValue.cmpWithin, compareLex, byKey, middle heldLeft maxLeft,
            middle heldRight maxRight]
          rfl

end

/-! ## Keys -/

/-- A key as an index holds it. -/
def Key.transform (env : Externals X) (key : Key (Datum X)) : Key (Datum X) :=
  key.map (DfValue.transformForSerializedKey env)

abbrev Key.Bounded (kinds : List Kind) (key : Key (Datum X)) : Prop :=
  List.Forall₂ DfValue.Bounded kinds key

/-- Keys column by column. -/
def Key.cmpWithin (env : Externals X) :
    List Kind → Key (Datum X) → Key (Datum X) → Ordering
  | [] => Ordering.byKey (fun _ => ()) compare
  | kind :: kinds =>
    compareLex (Ordering.byKey (fun key => key.headD .none) (DfValue.cmpWithin env kind))
      (Ordering.byKey List.tail (Key.cmpWithin env kinds))

theorem Externals.Ordered.transCmp_key (ordered : env.Ordered)
    (kinds : List Kind) : Std.TransCmp (Key.cmpWithin env kinds) := by
  induction kinds with
  | nil =>
    exact inferInstanceAs (Std.TransCmp (byKey (fun _ : Key (Datum X) => ()) compare))
  | cons kind kinds ih =>
    have first := ordered.transCmp kind
    exact inferInstanceAs (Std.TransCmp (compareLex
      (byKey (fun key : Key (Datum X) => key.headD .none) (DfValue.cmpWithin env kind))
      (byKey List.tail (Key.cmpWithin env kinds))))

theorem Key.compareIn_transform {kinds : List Kind}
    {left right : Key (Datum X)} (isLeft : Key.Bounded kinds left)
    (isRight : Key.Bounded kinds right) :
    Key.compareIn env (left.transform env) (right.transform env) =
      Key.cmpWithin env kinds (left.transform env) (right.transform env) := by
  induction isLeft generalizing right with
  | nil =>
    cases isRight
    exact List.compareLex_nil_nil
  | cons head _ ih =>
    cases isRight with
    | cons otherHead otherTail =>
      have first : DfValue.compareIn env _ _ = _ := DfValue.compareIn_transform head otherHead
      have rest := ih otherTail
      unfold Key.compareIn Key.transform at rest ⊢
      rw [List.map_cons, List.map_cons, List.compareLex_cons_cons, first, rest]
      rfl

end ReadySet.Data
