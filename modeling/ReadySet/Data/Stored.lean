import ReadySet.Data.Written

/-!
Owns decimals, bit vectors and arrays as values of base tables, and when two equal
values are written alike in an index (`DfValue::transform_for_serialized_key`).

Equality does not look at all that is written: not at the offset of a timestamp, a
time below a microsecond, the scale of a decimal or the case of a text. Only the last
is undone before a key is written, for a text that stands alone and not for the
elements of an array, and by another function than the one that compares texts: they
differ on a Σ that ends a word.
-/

namespace ReadySet.Data

open Library

/-! ## The lower case of equal texts -/

namespace Unicode

variable {unicode : Unicode} {before otherBefore characters others : List Bytes}

/-- Texts of equal characters differ in lower case only by a Σ that ends a word. -/
theorem lowered_flatten_iff
    (same : characters.map unicode.lowercase = others.map unicode.lowercase) :
    (unicode.lowered before characters).flatten = (unicode.lowered otherBefore others).flatten ↔
      unicode.finalSigmas before characters = unicode.finalSigmas otherBefore others := by
  induction characters generalizing before otherBefore others with
  | nil =>
    obtain rfl : others = [] := by simpa using same.symm
    exact iff_of_true rfl rfl
  | cons character characters ih =>
    obtain ⟨other, others, rfl⟩ : ∃ other rest, others = other :: rest := by
      cases others with
      | nil => simp at same
      | cons other rest => exact ⟨other, rest, rfl⟩
    obtain ⟨head, tail⟩ : unicode.lowercase character = unicode.lowercase other ∧
        characters.map unicode.lowercase = others.map unicode.lowercase := by simpa using same
    have isSigma {character : Bytes} {before after : List Bytes}
        (final : (character == capitalSigma && unicode.endsWord before after) = true) :
        unicode.lowercase character = smallSigma := by
      rw [lowercase, if_pos (by simpa using (Bool.and_eq_true_iff.mp final).1)]
    simp only [lowered, finalSigmas, List.zipWith_cons_cons, List.flatten_cons, List.cons.injEq]
    rw [← ih tail]
    -- Both forms of Σ take two bytes, so the characters stay aligned.
    rcases left : character == capitalSigma && unicode.endsWord before characters with _ | _ <;>
      rcases right : other == capitalSigma && unicode.endsWord otherBefore others with _ | _
    · simp [head, lowered]
    · have small := isSigma right
      refine iff_of_false (fun joined => ?_) (by simp)
      have apart := (List.append_inj joined (by simp [head, small, smallSigma, finalSigma])).1
      simp [head, small, smallSigma, finalSigma] at apart
    · have small := isSigma left
      refine iff_of_false (fun joined => ?_) (by simp)
      have apart := (List.append_inj joined (by simp [← head, small, smallSigma, finalSigma])).1
      simp [← head, small, smallSigma, finalSigma] at apart
    · simp [lowered]

/-- Texts that compare equal have one lower case exactly if a Σ ends a word at the
same places. -/
theorem toLowercase_eq_iff {left right : Bytes} (equal : unicode.cmpLowercase left right = .eq) :
    unicode.toLowercase left = unicode.toLowercase right ↔
      unicode.finalSigmas [] (unicode.characters left) =
        unicode.finalSigmas [] (unicode.characters right) :=
  lowered_flatten_iff (Std.LawfulEqCmp.compare_eq_iff_eq.mp equal)

end Unicode

/-! ## Decimals, bit vectors and arrays -/

/-- `Decimal`, `BitVec` and `Array`. A decimal has a sign, also as zero. An array has its
lower bounds, its shape and its elements, which are values again, with foreign values of
the type `E`. -/
inductive Foreign (E : Type) where
  | numeric (isNegative : Bool) (magnitude scale : Nat)
  | bitVector (bits : List Bool)
  | array (lowerBounds : List Int) (shape : List Nat) (contents : List (DfValue (Datum E)))

/-- The foreign values with arrays nested less deep than a number. -/
def Nested : Nat → Type
  | 0 => Empty
  | depth + 1 => Foreign (Nested depth)

namespace Foreign

variable {E : Type}

def mantissa (isNegative : Bool) (magnitude : Nat) : Int :=
  if isNegative then -magnitude else magnitude

/-- Decimals are equal by what they amount to, arrays by all that they hold, with
`DfValue::eq` for the elements. -/
def same (env : Externals E) : Foreign E → Foreign E → Bool
  | .numeric isNegative magnitude scale, .numeric isOtherNegative otherMagnitude otherScale =>
    mantissa isNegative magnitude * 10 ^ otherScale ==
      mantissa isOtherNegative otherMagnitude * 10 ^ scale
  | .bitVector bits, .bitVector others => bits == others
  | .array bounds shape contents, .array otherBounds otherShape others =>
    bounds == otherBounds && shape == otherShape && contents.isEqv others (DfValue.same env)
  | _, _ => false

def parts : Foreign E → Nat × List Int × List Nat × List (DfValue (Datum E))
  | .numeric isNegative magnitude scale => (0, [], [isNegative.toNat, magnitude, scale], [])
  | .bitVector bits => (1, [], bits.map Bool.toNat, [])
  | .array bounds shape contents => (2, bounds, shape, contents)

def ofParts : Nat × List Int × List Nat × List (DfValue (Datum E)) → Foreign E
  | (0, _, numbers, _) =>
    .numeric (numbers.getD 0 0 == 1) (numbers.getD 1 0) (numbers.getD 2 0)
  | (1, _, bits, _) => .bitVector (bits.map (· == 1))
  | (_, bounds, shape, contents) => .array bounds shape contents

theorem ofParts_parts (datum : Foreign E) : ofParts datum.parts = datum := by
  have read : ∀ bit : Bool, (bit.toNat == 1) = bit := by decide
  cases datum with
  | numeric isNegative magnitude scale => simp [parts, ofParts, read]
  | bitVector bits => simp [parts, ofParts, Function.comp_def, read]
  | array bounds shape contents => rfl

/-- Foreign values are written part by part, the elements of arrays as values. -/
def codec (env : Externals E) : Codec (Foreign E) :=
  (Codec.varint.pair (Codec.signed.sequence.pair
    (Codec.varint.sequence.pair (valueCodec env).sequence))).through parts ofParts ofParts_parts

end Foreign

/-- What values that may hold nested arrays take from outside. -/
structure Outside extends Unicode where
  cmpForeign : ∀ depth, ForeignKind → Nested depth → Nested depth → Ordering
  sameAcross : ∀ depth, Datum (Nested depth) → Datum (Nested depth) → Bool
  cmpAcross : ∀ depth, Datum (Nested depth) → Datum (Nested depth) → Ordering

/-- The equality and the written form of an array are those of its elements, one level
below. -/
def Externals.stored (outside : Outside) : ∀ depth, Externals (Nested depth)
  | 0 =>
    { toUnicode := outside.toUnicode
      payload := Externals.ascii.payload
      sameForeign := Externals.ascii.sameForeign
      cmpForeign := outside.cmpForeign 0
      sameAcross := outside.sameAcross 0
      cmpAcross := outside.cmpAcross 0 }
  | depth + 1 =>
    { toUnicode := outside.toUnicode
      payload := fun _ => Foreign.codec (stored outside depth)
      sameForeign := fun _ => Foreign.same (stored outside depth)
      cmpForeign := outside.cmpForeign (depth + 1)
      sameAcross := outside.sameAcross (depth + 1)
      cmpAcross := outside.cmpAcross (depth + 1) }

/-! ## Values that are written alike -/

/-- What equal values of one kind must share besides to hold the same: texts the
collation and the case, timestamps the bytes that say how to print them, times the
nanoseconds, and foreign values what they hold. -/
def Datum.Alike {X : Type} (held : X → X → Prop) : Datum X → Datum X → Prop
  | .text collation bytes, .text other others => collation = other ∧ bytes = others
  | .timestampTz _ _ extra, .timestampTz _ _ other => extra = other
  | .time nanos, .time other => nanos = other
  | .foreign _ datum, .foreign _ other => held datum other
  | _, _ => True

/-- Equal elements of arrays may be of two kinds. -/
def DfValue.Alike {X : Type} (held : X → X → Prop) : DfValue (Datum X) → DfValue (Datum X) → Prop
  | .value datum, .value other => datum.kind = other.kind ∧ datum.Alike held other
  | _, _ => True

/-- Equal decimals must share the scale, zeros also the sign, and arrays what their
elements must. -/
def Foreign.Alike {E : Type} (held : E → E → Prop) : Foreign E → Foreign E → Prop
  | .numeric isNegative _ scale, .numeric isOtherNegative _ other =>
    isNegative = isOtherNegative ∧ scale = other
  | .array _ _ contents, .array _ _ others => List.Forall₂ (DfValue.Alike held) contents others
  | _, _ => True

def Nested.Alike : ∀ depth, Nested depth → Nested depth → Prop
  | 0 => fun _ _ => True
  | depth + 1 => Foreign.Alike (Nested.Alike depth)

section

variable {X : Type} {env : Externals X} {held : X → X → Prop}

/-- Foreign values that are equal are the same just if they are alike. -/
def Tells (env : Externals X) (held : X → X → Prop) : Prop :=
  ∀ kind left right, env.sameForeign kind left right = true → (left = right ↔ held left right)

theorem datum_eq_iff (tells : Tells env held) {left right : Datum X}
    (kinds : left.kind = right.kind) (equal : left.same env right = true) :
    left = right ↔ left.Alike held right := by
  cases left <;> cases right <;> try contradiction
  case foreign.foreign kind left other right =>
    simp only [Datum.same, Bool.and_eq_true, beq_iff_eq] at equal
    simpa [Datum.Alike, equal.1] using tells kind left right equal.2
  all_goals simp_all [Datum.same, Datum.Alike]

theorem element_eq_iff (tells : Tells env held) {left right : DfValue (Datum X)}
    (equal : left.same env right = true) : left = right ↔ left.Alike held right := by
  cases left with
  | none =>
    cases right with
    | none => exact iff_of_true rfl trivial
    | value right => contradiction
  | value left =>
    cases right with
    | none => contradiction
    | value right =>
      rw [DfValue.Alike, DfValue.value.injEq]
      by_cases kinds : left.kind = right.kind
      · rw [and_iff_right kinds]
        exact datum_eq_iff tells kinds equal
      · exact iff_of_false (fun same => kinds (congrArg _ same)) fun both => kinds both.1

theorem contents_eq_iff (tells : Tells env held) {contents others : List (DfValue (Datum X))}
    (equal : contents.isEqv others (DfValue.same env) = true) :
    contents = others ↔ List.Forall₂ (DfValue.Alike held) contents others := by
  induction contents generalizing others with
  | nil => cases others <;> simp_all
  | cons cell cells ih =>
    cases others with
    | nil => simp at equal
    | cons other others =>
      rw [List.isEqv, Bool.and_eq_true] at equal
      rw [List.cons.injEq, List.forall₂_cons, element_eq_iff tells equal.1, ih equal.2]

theorem foreign_eq_iff (tells : Tells env held) {left right : Foreign X}
    (equal : left.same env right = true) : left = right ↔ left.Alike held right := by
  cases left <;> cases right <;> try contradiction
  case numeric.numeric isNegative magnitude scale isOtherNegative otherMagnitude otherScale =>
    have amounts : Foreign.mantissa isNegative magnitude * 10 ^ otherScale =
        Foreign.mantissa isOtherNegative otherMagnitude * 10 ^ scale := beq_iff_eq.mp equal
    rw [Foreign.Alike, Foreign.numeric.injEq]
    refine ⟨fun all => ⟨all.1, all.2.2⟩, ?_⟩
    rintro ⟨rfl, rfl⟩
    have mantissas := mul_right_cancel₀ (pow_ne_zero _ (by decide)) amounts
    refine ⟨rfl, ?_, rfl⟩
    cases isNegative <;> simpa [Foreign.mantissa] using mantissas
  case bitVector.bitVector bits others =>
    exact iff_of_true (congrArg _ (beq_iff_eq.mp equal)) trivial
  case array.array bounds shape contents otherBounds otherShape others =>
    simp only [Foreign.same, Bool.and_eq_true, beq_iff_eq] at equal
    rw [Foreign.Alike, ← contents_eq_iff tells equal.2]
    simp [equal.1]

end

section

variable {outside : Outside} {depth : Nat}

/-- The induction is on how deep arrays are nested. -/
theorem stored_tells : Tells (Externals.stored outside depth) (Nested.Alike depth) := by
  induction depth with
  | zero => exact fun _ left => left.elim
  | succ depth ih => exact fun _ _ _ => foreign_eq_iff ih

/-- What two equal values of one kind must share besides to be written alike in an
index. Texts of a collation that ignores case have words that end in Σ at the same
places; of texts of two collations, the one that heeds it is the lower case of the
other. -/
def DfValue.KeyedAlike (unicode : Unicode) :
    DfValue (Datum (Nested depth)) → DfValue (Datum (Nested depth)) → Prop
  | .value (.text .citext left), .value (.text .citext right) =>
    unicode.finalSigmas [] (unicode.characters left) =
      unicode.finalSigmas [] (unicode.characters right)
  | .value (.text .utf8 left), .value (.text .citext right) => unicode.toLowercase right = left
  | .value (.text .citext left), .value (.text .utf8 right) => unicode.toLowercase left = right
  | .value left, .value right => left.Alike (Nested.Alike depth) right
  | _, _ => True

theorem stored_toUnicode :
    (Externals.stored outside depth).toUnicode = outside.toUnicode := by
  cases depth <;> rfl

/-- **Equal values of one kind are written alike in an index exactly if** texts have
words that end in Σ at the same places, timestamps print alike, times agree below a
microsecond, decimals have one scale and sign, and the elements of arrays are of one kind
and share all of this and their case. -/
theorem serialize_transform_iff_shares {kind : Kind} {left right : DfValue (Datum (Nested depth))}
    (leftTyped : left.Typed kind) (rightTyped : right.Typed kind)
    (equal : left.same (.stored outside depth) right = true) :
    (left.transformForSerializedKey (.stored outside depth)).serialize (.stored outside depth) =
        (right.transformForSerializedKey (.stored outside depth)).serialize
          (.stored outside depth) ↔
      DfValue.KeyedAlike outside.toUnicode left right := by
  refine (serialize_transform_iff leftTyped rightTyped).trans ?_
  rw [← @stored_toUnicode outside depth]
  cases left with
  | none =>
    cases right with
    | none => exact iff_of_true rfl trivial
    | value datum => contradiction
  | value left =>
    cases right with
    | none => contradiction
    | value right =>
      have kinds : left.kind = right.kind := Eq.trans leftTyped (Eq.symm rightTyped)
      have same := datum_eq_iff stored_tells kinds equal
      cases left <;> cases right <;> try contradiction
      case text.text collation left other right =>
        rw [DfValue.same, Datum.same, beq_iff_eq] at equal
        cases collation <;> cases other
        · simp [DfValue.WrittenAlike, DfValue.KeyedAlike, Datum.Alike, Collation.normalize]
        · exact eq_comm
        · exact Iff.rfl
        · exact Unicode.toLowercase_eq_iff equal
      all_goals exact (DfValue.value.injEq _ _).to_iff.trans same

end

/-! ## Equal values -/

/-- Texts of ASCII characters, and no equality of values of two kinds. -/
def Outside.ascii : Outside where
  toUnicode := Externals.ascii.toUnicode
  cmpForeign _ _ _ _ := .eq
  sameAcross _ _ _ := false
  cmpAcross _ _ _ := .eq

/-- The key of a value, with arrays that hold no arrays. -/
def keyBytes (cell : DfValue (Datum (Nested 1))) : Bytes :=
  (cell.transformForSerializedKey (.stored .ascii 1)).serialize (.stored .ascii 1)

/-- An array of one decimal. -/
def decimals (magnitude scale : Nat) : DfValue (Datum (Nested 2)) :=
  .value (.foreign .array
    (.array [1] [1] [.value (.foreign .numeric (.numeric false magnitude scale))]))

/-- One instant, printed one hour east of UTC and in UTC, and an array of the decimals
1.0 and 1.00. -/
theorem timestamps_of_one_instant_written_apart :
    ((DfValue.value (.timestampTz 0 0 (16, 14, 64))).same (.stored .ascii 1)
        (.value (.timestampTz 0 0 (0, 0, 64))) = true ∧
      keyBytes (.value (.timestampTz 0 0 (16, 14, 64))) ≠
        keyBytes (.value (.timestampTz 0 0 (0, 0, 64)))) ∧
    (decimals 10 1).same (.stored .ascii 2) (decimals 100 2) = true ∧
      ((decimals 10 1).transformForSerializedKey (.stored .ascii 2)).serialize (.stored .ascii 2) ≠
        ((decimals 100 2).transformForSerializedKey (.stored .ascii 2)).serialize
          (.stored .ascii 2) := by
  decide

/-- An array of one text that ignores case. -/
def citexts (byte : UInt8) : DfValue (Datum (Nested 1)) :=
  .value (.foreign .array (.array [1] [1] [.value (.text .citext [byte])]))

/-- `A` and `a` are written alike, but not as elements of an array. -/
theorem texts_of_one_normal_form_written_alike :
    keyBytes (.value (.text .citext [65])) = keyBytes (.value (.text .citext [97])) ∧
      keyBytes (citexts 65) ≠ keyBytes (citexts 97) := by
  refine ⟨(@serialize_transform_iff_shares .ascii 1 .text (.value (.text .citext [65]))
    (.value (.text .citext [97])) rfl rfl rfl).mpr rfl, fun same => ?_⟩
  have alike := (@serialize_transform_iff_shares .ascii 1 (.foreign .array) (citexts 65)
    (citexts 97) rfl rfl (by decide)).mp same
  simp [citexts, DfValue.KeyedAlike, Datum.Alike, Nested.Alike, Foreign.Alike,
    DfValue.Alike] at alike

end ReadySet.Data
