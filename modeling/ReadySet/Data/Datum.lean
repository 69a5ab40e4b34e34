import ReadySet.Library.Codec
import ReadySet.Data.Key

/-!
Owns the values of base tables as they are written to disk: the kinds of
`DfValue` other than NULL, their equality (`DfValue::eq`), and how bincode
writes values (`DfValue::serialize`) and the keys of an index
(`PointKey::serialize`).

`Int` and `UnsignedInt` are one kind, as are `Text` and `TinyText`: the source
compares and writes them alike. Decimals and bit vectors, which are types of other
crates, and arrays, whose elements are values again, are a parameter here
(`Data.Stored` has them), as are the lower case of Unicode's characters and
comparisons of values of two kinds. Does not own `PassThrough`, which has no
written form.
-/

namespace ReadySet.Data

open Library DfValue

inductive Collation where
  | utf8
  | citext
deriving DecidableEq, Repr

/-- The kinds whose values are a parameter: decimals and bit vectors of other crates,
and arrays. -/
inductive ForeignKind where
  | numeric
  | bitVector
  | array
deriving DecidableEq, Repr

/-- A value of a base table that is not NULL. Floats are their bits, a text is
its UTF-8 bytes, a timestamp is an instant with the three bytes that say how to
print it. -/
inductive Datum (X : Type) where
  | int (number : Int)
  | float (bits : BitVec 32)
  | double (bits : BitVec 64)
  | text (collation : Collation) (bytes : Bytes)
  | timestampTz (seconds : BitVec 64) (nanos : BitVec 32) (extra : UInt8 × UInt8 × UInt8)
  | time (nanos : Int)
  | byteArray (bytes : Bytes)
  | foreign (kind : ForeignKind) (datum : X)
  | max
deriving DecidableEq

/-- What the standard library takes from Unicode. A character is its UTF-8 bytes,
which are in the order of the characters. -/
structure Unicode where
  /-- `str::chars`. -/
  characters : Bytes → List Bytes
  /-- `char::to_lowercase` of a character other than Σ. -/
  lowercaseOf : Bytes → Bytes
  /-- Whether a Σ between these characters ends a word. -/
  endsWord : List Bytes → List Bytes → Bool

/-- What the values take from outside: Unicode, the foreign kinds, and the
comparisons of values of two kinds. -/
structure Externals (X : Type) extends Unicode where
  payload : ForeignKind → Codec X
  sameForeign : ForeignKind → X → X → Bool
  cmpForeign : ForeignKind → X → X → Ordering
  /-- The arms of `DfValue::eq` for values of two kinds. -/
  sameAcross : Datum X → Datum X → Bool
  /-- The arms of `DfValue::cmp` for values of two kinds. -/
  cmpAcross : Datum X → Datum X → Ordering

variable {X : Type}

/-- Byte strings in order. -/
def Bytes.cmp : Bytes → Bytes → Ordering := List.compareLex compare

instance : Std.TransCmp Bytes.cmp := inferInstanceAs (Std.TransCmp (List.compareLex compare))

instance : Std.LawfulEqCmp Bytes.cmp :=
  inferInstanceAs (Std.LawfulEqCmp (List.compareLex compare))

namespace Unicode

def capitalSigma : Bytes := [0xCE, 0xA3]

def smallSigma : Bytes := [0xCF, 0x83]

def finalSigma : Bytes := [0xCF, 0x82]

variable (unicode : Unicode)

/-- `char::to_lowercase`. -/
def lowercase (character : Bytes) : Bytes :=
  if character = capitalSigma then smallSigma else unicode.lowercaseOf character

/-- Which characters are a Σ that ends a word. -/
def finalSigmas (before : List Bytes) : List Bytes → List Bool
  | [] => []
  | character :: after => (character == capitalSigma && unicode.endsWord before after) ::
      finalSigmas (before ++ [character]) after

/-- The lower case of characters after others: a Σ that ends a word is ς. -/
def lowered (before characters : List Bytes) : List Bytes :=
  List.zipWith (fun character final => if final then finalSigma else unicode.lowercase character)
    characters (unicode.finalSigmas before characters)

/-- `str::to_lowercase`. -/
def toLowercase (text : Bytes) : Bytes := (unicode.lowered [] (unicode.characters text)).flatten

/-- The order of `Collation::compare_strs`: by the lower case of the characters, one
by one. -/
def cmpLowercase (left right : Bytes) : Ordering :=
  List.compareLex Bytes.cmp ((unicode.characters left).map unicode.lowercase)
    ((unicode.characters right).map unicode.lowercase)

end Unicode

def Collation.normalize (env : Externals X) : Collation → Bytes → Bytes
  | .utf8, bytes => bytes
  | .citext, bytes => env.toLowercase bytes

def Collation.compareStrs (env : Externals X) : Collation → Bytes → Bytes → Ordering
  | .utf8, left, right => Bytes.cmp left right
  | .citext, left, right => env.cmpLowercase left right

/-- What `MySqlTime::eq` and `MySqlTime::cmp` look at: the sign, and the size
down to microseconds. -/
def timeParts (nanos : Int) : Bool × Nat := (decide (0 < nanos), nanos.natAbs / 1000)

/-- `DfValue::eq` on values that are not NULL. -/
def Datum.same (env : Externals X) : Datum X → Datum X → Bool
  | .int left, .int right => left == right
  | .float left, .float right => left == right
  | .double left, .double right => left == right
  | .text collation left, .text _ right => collation.compareStrs env left right == .eq
  | .timestampTz seconds nanos _, .timestampTz otherSeconds otherNanos _ =>
    seconds == otherSeconds && nanos == otherNanos
  | .time left, .time right => timeParts left == timeParts right
  | .byteArray left, .byteArray right => left == right
  | .foreign kind left, .foreign other right =>
    kind == other && env.sameForeign kind left right
  | .max, .max => true
  | left, right => env.sameAcross left right

/-- `DfValue::eq`. -/
def DfValue.same (env : Externals X) : DfValue (Datum X) → DfValue (Datum X) → Bool
  | .none, .none => true
  | .value left, .value right => left.same env right
  | _, _ => false

/-- Texts of ASCII characters, and no values of foreign kinds. -/
def Externals.ascii : Externals Empty where
  characters bytes := bytes.map fun byte => [byte]
  lowercaseOf character := character.map lower
  endsWord _ _ := false
  payload _ :=
    { encode := Empty.elim
      decode := fun _ => none
      decode_encode := fun datum => datum.elim }
  sameForeign _ datum := datum.elim
  cmpForeign _ datum := datum.elim
  sameAcross _ _ := false
  cmpAcross _ _ := .eq
where
  lower (byte : UInt8) : UInt8 := if 65 ≤ byte ∧ byte ≤ 90 then byte + 32 else byte

/-! ## The written form of a value -/

def Collation.number : Collation → Nat
  | .utf8 => 0
  | .citext => 1

def Collation.ofNumber : Nat → Collation
  | 0 => .utf8
  | _ => .citext

def Collation.codec : Codec Collation :=
  Codec.varint.through Collation.number Collation.ofNumber (fun collation => by cases collation <;> rfl)

/-- The instant of a timestamp as one number: seconds in the low 64 bits,
nanoseconds above. -/
def instantCodec : Codec (BitVec 64 × BitVec 32) :=
  Codec.varint.through (fun instant => instant.1.toNat + instant.2.toNat * 2 ^ 64)
    (fun code => (BitVec.ofNat 64 code, BitVec.ofNat 32 (code / 2 ^ 64)))
    (by
      rintro ⟨seconds, nanos⟩
      have small := seconds.isLt
      have low : (seconds.toNat + nanos.toNat * 2 ^ 64) % 2 ^ 64 = seconds.toNat := by omega
      have high : (seconds.toNat + nanos.toNat * 2 ^ 64) / 2 ^ 64 = nanos.toNat := by omega
      refine Prod.ext (BitVec.eq_of_toNat_eq ?_) (BitVec.eq_of_toNat_eq ?_)
      · rw [BitVec.toNat_ofNat, low]
      · rw [BitVec.toNat_ofNat, high]
        exact Nat.mod_eq_of_lt nanos.isLt)

def extraCodec : Codec (UInt8 × UInt8 × UInt8) := Codec.byte.pair (Codec.byte.pair Codec.byte)

/-- The variants of `DfValue` in its written form. -/
def ForeignKind.variant : ForeignKind → Nat
  | .numeric => 7
  | .bitVector => 8
  | .array => 10

/-- `DfValue::serialize`: the number of the variant, then what it holds. -/
def DfValue.serialize (env : Externals X) : DfValue (Datum X) → Bytes
  | .none => writeVarint 0
  | .value (.int number) => writeVarint 1 ++ Codec.signed.encode number
  | .value (.double bits) => writeVarint 2 ++ (Codec.bitVec 64).encode bits
  | .value (.text collation bytes) =>
    writeVarint 3 ++ (Collation.codec.pair Codec.block).encode (collation, bytes)
  | .value (.time nanos) => writeVarint 4 ++ Codec.signed.encode nanos
  | .value (.float bits) => writeVarint 5 ++ (Codec.bitVec 32).encode bits
  | .value (.byteArray bytes) => writeVarint 6 ++ Codec.block.encode bytes
  | .value (.timestampTz seconds nanos extra) =>
    writeVarint 9 ++ (instantCodec.pair extraCodec).encode ((seconds, nanos), extra)
  | .value (.foreign kind datum) =>
    writeVarint kind.variant ++ (env.payload kind).encode datum
  | .value .max => writeVarint 11

/-- What a variant of the written form holds; `none` where the source reports an
error. -/
def DfValue.readVariant (env : Externals X) (payload : Bytes) :
    Nat → Option (DfValue (Datum X) × Bytes)
  | 0 => some (.none, payload)
  | 1 => (Codec.signed.decode payload).map fun (number, rest) => (.value (.int number), rest)
  | 2 => ((Codec.bitVec 64).decode payload).map fun (bits, rest) => (.value (.double bits), rest)
  | 3 => ((Collation.codec.pair Codec.block).decode payload).map fun (text, rest) =>
    (.value (.text text.1 text.2), rest)
  | 4 => (Codec.signed.decode payload).map fun (nanos, rest) => (.value (.time nanos), rest)
  | 5 => ((Codec.bitVec 32).decode payload).map fun (bits, rest) => (.value (.float bits), rest)
  | 6 => (Codec.block.decode payload).map fun (bytes, rest) => (.value (.byteArray bytes), rest)
  | 7 => ((env.payload .numeric).decode payload).map fun (datum, rest) =>
    (.value (.foreign .numeric datum), rest)
  | 8 => ((env.payload .bitVector).decode payload).map fun (datum, rest) =>
    (.value (.foreign .bitVector datum), rest)
  | 9 => ((instantCodec.pair extraCodec).decode payload).map fun (stamp, rest) =>
    (.value (.timestampTz stamp.1.1 stamp.1.2 stamp.2), rest)
  | 10 => ((env.payload .array).decode payload).map fun (datum, rest) =>
    (.value (.foreign .array datum), rest)
  | 11 => some (.value .max, payload)
  | _ => Option.none

def DfValue.deserialize (env : Externals X) (bytes : Bytes) :
    Option (DfValue (Datum X) × Bytes) :=
  (readVarint bytes).bind fun (variant, payload) => DfValue.readVariant env payload variant

theorem DfValue.deserialize_variant (env : Externals X) (variant : Nat) (payload rest : Bytes) :
    deserialize env ((writeVarint variant ++ payload) ++ rest) =
      readVariant env (payload ++ rest) variant := by
  rw [deserialize, List.append_assoc, readVarint_writeVarint]
  rfl

theorem DfValue.deserialize_serialize (env : Externals X) (cell : DfValue (Datum X))
    (rest : Bytes) : deserialize env (cell.serialize env ++ rest) = some (cell, rest) := by
  cases cell with
  | none => exact deserialize_variant env 0 [] rest
  | value datum =>
    cases datum with
    | max => exact deserialize_variant env 11 [] rest
    | foreign kind datum =>
      rw [serialize, deserialize_variant]
      cases kind <;> simp [readVariant, ForeignKind.variant, Codec.decode_encode]
    | _ =>
      rw [serialize, deserialize_variant, readVariant, Codec.decode_encode, Option.map_some]

def valueCodec (env : Externals X) : Codec (DfValue (Datum X)) where
  encode := DfValue.serialize env
  decode := DfValue.deserialize env
  decode_encode := DfValue.deserialize_serialize env

/-! ## The written form of a key -/

def DfValue.transformForSerializedKey (env : Externals X) :
    DfValue (Datum X) → DfValue (Datum X)
  | .value (.text .citext bytes) =>
    .value (.text .utf8 (Collation.citext.normalize env bytes))
  | cell => cell

/-- `serialize_val!`: a value inside a key of several columns. A text is
written without its variant and its collation. -/
def DfValue.serializeElement (env : Externals X) (cell : DfValue (Datum X)) : Bytes :=
  match cell.transformForSerializedKey env with
  | .value (.text _ bytes) => Codec.block.encode bytes
  | transformed => transformed.serialize env

/-- `PointKey::serialize`: one value as it is, two to six as a tuple, more as a
sequence after its length. -/
def Key.serialize (env : Externals X) : Key (Datum X) → Bytes
  | [cell] => (cell.transformForSerializedKey env).serialize env
  | cells =>
    (if cells.length ≤ 6 then [] else writeVarint cells.length) ++
      cells.flatMap (DfValue.serializeElement env)

end ReadySet.Data
