import ReadySet.Data.Datum

/-!
Owns when two keys are written alike. In the columns of a table, each of which
holds values of one kind or NULL, two keys have the same written form exactly
when their values do one by one: texts that normalise alike, identical values of
the other kinds, and, in a key of several columns, NULL and the empty text.
-/

namespace ReadySet.Data

open Library

variable {X : Type}

/-- The type of a column. -/
inductive Kind where
  | int
  | float
  | double
  | text
  | timestampTz
  | time
  | byteArray
  | foreign (kind : ForeignKind)
  | max
deriving DecidableEq, Repr

def Datum.kind : Datum X → Kind
  | .int _ => .int
  | .float _ => .float
  | .double _ => .double
  | .text _ _ => .text
  | .timestampTz _ _ _ => .timestampTz
  | .time _ => .time
  | .byteArray _ => .byteArray
  | .foreign kind _ => .foreign kind
  | .max => .max

/-- NULL or a value of one kind. -/
def DfValue.Typed (kind : Kind) : DfValue (Datum X) → Prop
  | .none => True
  | .value datum => datum.kind = kind

/-- The values of one column that are written alike in a key, of several columns
or of one. -/
def DfValue.WrittenAlike (env : Externals X) (several : Bool) :
    DfValue (Datum X) → DfValue (Datum X) → Prop
  | .value (.text collation left), .value (.text other right) =>
    collation.normalize env left = other.normalize env right
  | .none, .value (.text collation bytes) =>
    several = true ∧ collation.normalize env bytes = []
  | .value (.text collation bytes), .none =>
    several = true ∧ collation.normalize env bytes = []
  | left, right => left = right

section

variable {env : Externals X}

theorem transform_text (collation : Collation) (bytes : Bytes) :
    (DfValue.value (.text collation bytes)).transformForSerializedKey env =
      .value (.text .utf8 (collation.normalize env bytes)) := by
  cases collation <;> rfl

theorem serializeElement_text (collation : Collation) (bytes : Bytes) :
    (DfValue.value (.text collation bytes)).serializeElement env =
      Codec.block.encode (collation.normalize env bytes) := by
  rw [DfValue.serializeElement, transform_text]

section

variable {kind : Kind} (notText : kind ≠ .text) {cell : DfValue (Datum X)}
  (typed : cell.Typed kind)

include notText typed

theorem transform_of_kind : cell.transformForSerializedKey env = cell := by
  cases cell with
  | none => rfl
  | value datum =>
    cases datum with
    | text => exact absurd typed.symm notText
    | _ => rfl

theorem serializeElement_of_kind : cell.serializeElement env = cell.serialize env := by
  cases cell with
  | none => rfl
  | value datum =>
    cases datum with
    | text => exact absurd typed.symm notText
    | _ => rfl

theorem writtenAlike_of_kind {several : Bool} {other : DfValue (Datum X)}
    (otherTyped : other.Typed kind) :
    DfValue.WrittenAlike env several cell other ↔ cell = other := by
  cases cell with
  | none =>
    cases other with
    | none => exact Iff.rfl
    | value datum =>
      cases datum with
      | text => exact absurd otherTyped.symm notText
      | _ => exact Iff.rfl
  | value datum =>
    cases datum with
    | text => exact absurd typed.symm notText
    | _ => exact Iff.rfl

end

theorem null_append_eq_block {bytes after afterBlock : Bytes} :
    writeVarint 0 ++ after = Codec.block.encode bytes ++ afterBlock ↔
      bytes = [] ∧ after = afterBlock := by
  constructor
  · intro same
    have split : Codec.varint.encode 0 ++ after =
        Codec.varint.encode bytes.length ++ (bytes ++ afterBlock) := by
      rw [← List.append_assoc]
      exact same
    obtain ⟨size, rest⟩ := Codec.varint.append_inj split
    obtain rfl := List.length_eq_zero_iff.mp size.symm
    exact ⟨rfl, rest⟩
  · rintro ⟨rfl, rfl⟩
    rfl

theorem typed_text_cases {cell : DfValue (Datum X)} (typed : cell.Typed .text) :
    cell = .none ∨ ∃ collation bytes, cell = .value (.text collation bytes) := by
  cases cell with
  | none => exact .inl rfl
  | value datum =>
    cases datum with
    | text collation bytes => exact .inr ⟨collation, bytes, rfl⟩
    | _ => cases typed

section

variable {kind : Kind} {left right : DfValue (Datum X)} (leftTyped : left.Typed kind)
  (rightTyped : right.Typed kind)

include leftTyped rightTyped

/-- The elements of a key are read one after the other. -/
theorem serializeElement_append_iff {after afterRight : Bytes} :
    left.serializeElement env ++ after = right.serializeElement env ++ afterRight ↔
      DfValue.WrittenAlike env true left right ∧ after = afterRight := by
  by_cases isText : kind = .text
  · subst isText
    rcases typed_text_cases leftTyped with rfl | ⟨collation, bytes, rfl⟩
    · rcases typed_text_cases rightTyped with rfl | ⟨other, otherBytes, rfl⟩
      · rw [List.append_cancel_left_eq]
        exact (and_iff_right rfl).symm
      · rw [serializeElement_text]
        refine null_append_eq_block.trans (and_congr_left fun _ => ?_)
        exact (and_iff_right rfl).symm
    · rcases typed_text_cases rightTyped with rfl | ⟨other, otherBytes, rfl⟩
      · rw [serializeElement_text, eq_comm]
        refine null_append_eq_block.trans (and_congr ?_ eq_comm)
        exact (and_iff_right rfl).symm
      · rw [serializeElement_text, serializeElement_text]
        constructor
        · exact fun same => Codec.block.append_inj same
        · rintro ⟨alike, rfl⟩
          exact congrArg (Codec.block.encode · ++ after) alike
  · rw [serializeElement_of_kind isText leftTyped, serializeElement_of_kind isText rightTyped,
      writtenAlike_of_kind isText leftTyped rightTyped]
    constructor
    · exact fun same => (valueCodec env).append_inj same
    · rintro ⟨rfl, rfl⟩
      rfl

theorem serialize_transform_iff :
    (left.transformForSerializedKey env).serialize env =
        (right.transformForSerializedKey env).serialize env ↔
      DfValue.WrittenAlike env false left right := by
  refine (valueCodec env).encode_injective.eq_iff.trans ?_
  by_cases isText : kind = .text
  · subst isText
    rcases typed_text_cases leftTyped with rfl | ⟨collation, bytes, rfl⟩
    · rcases typed_text_cases rightTyped with rfl | ⟨other, otherBytes, rfl⟩
      · exact Iff.rfl
      · rw [transform_text]
        simp [DfValue.WrittenAlike, DfValue.transformForSerializedKey]
    · rcases typed_text_cases rightTyped with rfl | ⟨other, otherBytes, rfl⟩
      · rw [transform_text]
        simp [DfValue.WrittenAlike, DfValue.transformForSerializedKey]
      · rw [transform_text, transform_text]
        simp [DfValue.WrittenAlike]
  · rw [transform_of_kind isText leftTyped, transform_of_kind isText rightTyped,
      writtenAlike_of_kind isText leftTyped rightTyped]

end

end

/-! ## Keys -/

/-- A key of values of the kinds of its columns. -/
abbrev Key.Typed (kinds : List Kind) (key : Key (Datum X)) : Prop :=
  List.Forall₂ DfValue.Typed kinds key

def Key.WrittenAlike (env : Externals X) (left right : Key (Datum X)) : Prop :=
  List.Forall₂ (DfValue.WrittenAlike env (decide (left.length ≠ 1))) left right

section

variable {env : Externals X} {kinds : List Kind} {left right : Key (Datum X)}
  (leftTyped : Key.Typed kinds left) (rightTyped : Key.Typed kinds right)

include leftTyped rightTyped

theorem flatMap_serializeElement_iff :
    left.flatMap (DfValue.serializeElement env) =
        right.flatMap (DfValue.serializeElement env) ↔
      List.Forall₂ (DfValue.WrittenAlike env true) left right := by
  induction leftTyped generalizing right with
  | nil =>
    cases rightTyped
    exact iff_of_true rfl List.Forall₂.nil
  | cons head _ ih =>
    cases rightTyped with
    | cons otherHead otherTail =>
      rw [List.flatMap_cons, List.flatMap_cons, serializeElement_append_iff head otherHead,
        ih otherTail, List.forall₂_cons]

/-- Keys have the same bytes exactly if they are written alike column by column. -/
theorem Key.serialize_eq_iff :
    Key.serialize env left = Key.serialize env right ↔ Key.WrittenAlike env left right := by
  have lengths : left.length = right.length := leftTyped.length_eq.symm.trans rightTyped.length_eq
  by_cases one : left.length = 1
  · obtain ⟨cell, rfl⟩ := List.length_eq_one_iff.mp one
    obtain ⟨other, rfl⟩ := List.length_eq_one_iff.mp (lengths.symm.trans one)
    cases leftTyped with
    | cons head _ =>
      cases rightTyped with
      | cons otherHead _ =>
        refine (serialize_transform_iff head otherHead).trans ?_
        simp [Key.WrittenAlike]
  · have many : ∀ key : Key (Datum X), key.length ≠ 1 → Key.serialize env key =
        (if key.length ≤ 6 then [] else writeVarint key.length) ++
          key.flatMap (DfValue.serializeElement env) := by
      intro key several
      cases key with
      | nil => rfl
      | cons first rest =>
        cases rest with
        | nil => exact absurd rfl several
        | cons second others => rfl
    rw [many left one, many right (lengths ▸ one), lengths, List.append_cancel_left_eq,
      flatMap_serializeElement_iff leftTyped rightTyped, Key.WrittenAlike]
    simp [one]

end

end ReadySet.Data
