import ReadySet.Data.Written
import ReadySet.Node.Special.Sharder

/-!
Owns the shard of a value of a base table (`shard_by`), and when two values that
`DfValue::eq` identifies meet in one shard whatever the hasher and the number
of shards.

Integers are their own hash, and most kinds feed the hasher what equality
compares. A text feeds the bytes it holds, which a collation may compare
otherwise, and a timestamp feeds what it prints, which depends on its offset.
Chrono's formats, floats in decimals and what the foreign kinds feed a hasher
are parameters.
-/

namespace ReadySet.Dataflow

open Data Library

variable {X : Type}

/-- `TimestampTz::extra`. -/
abbrev Extra := UInt8 × UInt8 × UInt8

namespace Extra

def hasTimezone (extra : Extra) : Bool := extra.2.2 &&& 0b01000000 != 0

def hasDateOnly (extra : Extra) : Bool := extra.2.2 &&& 0b00100000 != 0

def subsecondDigits (extra : Extra) : Nat := ((extra.2.2 &&& 0b00011100) >>> 2).toNat

/-- The offset from UTC in seconds. -/
def getOffset (extra : Extra) : Int :=
  let offset := extra.1.toNat + extra.2.1.toNat * 256 + (extra.2.2 &&& 1).toNat * 65536
  if extra.2.2 &&& 0b10 != 0 then -offset else offset

end Extra

/-- What `TimestampTz::fmt` writes of an instant: its day, or its second, where
it falls at an offset, the latter with or without the offset and with a number
of decimals. -/
inductive Shown where
  | date (day : Int)
  | timestamp (second : Int) (hasTimezone : Bool) (subsecondDigits : Nat)
deriving DecidableEq, Repr

def shown (seconds : BitVec 64) (extra : Extra) : Shown :=
  let second := seconds.toInt + extra.getOffset
  if extra.hasDateOnly then .date (second / 86400)
  else .timestamp second extra.hasTimezone extra.subsecondDigits

/-- What `shard_by` takes from outside. -/
structure Rendering (X : Type) where
  /-- `DateTime::format` and the decimals: what is shown of an instant. -/
  format : BitVec 64 → BitVec 32 → Shown → Bytes
  /-- `f as f64`. -/
  widen : BitVec 32 → BitVec 64
  /-- What `Hash` feeds for the foreign kinds. -/
  fed : ForeignKind → X → Bytes

/-- An integer as it is fed to a hasher. -/
def word (width number : Nat) : Bytes :=
  (List.range width).map fun place => UInt8.ofNat (number / 256 ^ place)

/-- `MySqlTime::hash`: the sign, hours, minutes, seconds and microseconds. -/
def feedParts : Bool × Nat → Bytes
  | (positive, micros) =>
    word 1 positive.toNat ++ word 2 (min (micros / 3600000000) 65535) ++
      word 1 (micros / 60000000 % 60) ++ word 1 (micros / 1000000 % 60) ++
      word 4 (micros % 1000000)

/-- What `shard_by` reduces to a shard, with a hasher that is a function of the
bytes fed to it. -/
def shardHash (render : Rendering X) (finish : Bytes → Nat) : DfValue (Datum X) → Nat
  | .none => 0
  | .value .max => 0
  | .value (.int number) => (number % 2 ^ 64).toNat
  | .value (.text _ bytes) => finish bytes
  | .value (.timestampTz seconds nanos extra) =>
    finish (render.format seconds nanos (shown seconds extra))
  | .value (.float bits) => finish (word 8 (render.widen bits).toNat)
  | .value (.double bits) => finish (word 8 bits.toNat)
  | .value (.time nanos) => finish (feedParts (timeParts nanos))
  | .value (.byteArray bytes) => finish (word 8 bytes.length ++ bytes)
  | .value (.foreign kind datum) => finish (render.fed kind datum)

/-- What is documented: the text of an instant can be read back, and bit vectors
that are equal feed a hasher alike. -/
structure Rendering.Legible (render : Rendering X) (env : Externals X) : Prop where
  format : ∀ seconds nanos, (render.format seconds nanos).Injective
  fed : ∀ {left right}, env.sameForeign .bitVector left right = true →
    render.fed .bitVector left = render.fed .bitVector right

theorem mod_eq_iff {left right : Bytes} :
    (∀ (finish : Bytes → Nat) (shards : Nat), 0 < shards →
        finish left % shards = finish right % shards) ↔ left = right := by
  constructor
  · intro meet
    have marked := meet (fun bytes => if bytes = left then 1 else 0) 2 (by decide)
    by_contra apart
    simp [Ne.symm apart] at marked
  · rintro rfl _ _ _
    rfl

/-- What two equal values of one kind must share besides to meet in one shard: a
text its bytes, a timestamp how it prints. -/
def HashAlike : DfValue (Datum X) → DfValue (Datum X) → Prop
  | .value (.text _ left), .value (.text _ right) => left = right
  | .value (.timestampTz seconds _ extra), .value (.timestampTz _ _ other) =>
    shown seconds extra = shown seconds other
  | _, _ => True

/-- **Equal values of one column go to one shard, whatever the hasher and the
number of shards, exactly if texts have the same bytes and timestamps print
alike.** -/
theorem shardBy_eq_iff {render : Rendering X} {env : Externals X} (legible : render.Legible env)
    {kind : Kind} (listed : kind ∉ [.foreign .numeric, .foreign .array])
    {left right : DfValue (Datum X)} (leftTyped : left.Typed kind) (rightTyped : right.Typed kind)
    (equal : left.same env right = true) :
    (∀ (finish : Bytes → Nat) (shards : Nat), 0 < shards →
        shardBy (shardHash render finish) left shards =
          shardBy (shardHash render finish) right shards) ↔
      HashAlike left right := by
  cases left with
  | none =>
    cases right with
    | none => exact iff_of_true (fun _ _ _ => rfl) trivial
    | value datum => contradiction
  | value left =>
    cases right with
    | none => contradiction
    | value right =>
      obtain rfl : left.kind = kind := leftTyped
      have kinds : right.kind = left.kind := rightTyped
      cases left <;> cases right <;> cases kinds
      case text.text.refl => exact mod_eq_iff
      case timestampTz.timestampTz.refl =>
        obtain ⟨rfl, rfl⟩ : _ = _ ∧ _ = _ := by simpa [DfValue.same, Datum.same] using equal
        exact mod_eq_iff.trans (legible.format _ _).eq_iff
      case time.time.refl =>
        refine iff_of_true (mod_eq_iff.mpr ?_) trivial
        exact congrArg feedParts (beq_iff_eq.mp equal)
      case foreign.foreign.refl other _ _ =>
        cases other
        case bitVector =>
          refine iff_of_true (mod_eq_iff.mpr (legible.fed ?_)) trivial
          simpa [DfValue.same, Datum.same] using equal
        all_goals exact absurd (by simp [Datum.kind]) listed
      case max.max.refl => exact iff_of_true (fun _ _ _ => rfl) trivial
      all_goals
        simp only [DfValue.same, Datum.same, beq_iff_eq] at equal
        subst equal
        exact iff_of_true (fun _ _ _ => rfl) trivial

/-- Formats that write what they show as numbers. -/
def Rendering.numbers : Rendering Empty where
  format _ _
    | .date day => 0 :: Codec.signed.encode day
    | .timestamp second hasTimezone digits =>
      1 :: (Codec.signed.pair (Codec.varint.pair Codec.varint)).encode
        (second, hasTimezone.toNat, digits)
  widen := BitVec.setWidth 64
  fed _ := Empty.elim

theorem Rendering.numbers_legible : numbers.Legible Externals.ascii where
  format := by
    intro _ _ left right same
    rcases left with day | ⟨second, zone, digits⟩ <;> rcases right with other | ⟨other, shows, others⟩
    · exact congrArg _ (Codec.signed.encode_injective (List.cons.inj same).2)
    · exact absurd (List.cons.inj same).1 (by decide)
    · exact absurd (List.cons.inj same).1 (by decide)
    · have parts := (Codec.signed.pair (Codec.varint.pair Codec.varint)).encode_injective
        (List.cons.inj same).2
      cases zone <;> cases shows <;> simp_all
  fed {left} := left.elim

/-- One text of a column that ignores case, in capitals and not, over three
shards. -/
theorem citexts_in_two_shards :
    (DfValue.value (.text .citext [65])).same Externals.ascii (.value (.text .citext [97])) ∧
      shardBy (shardHash Rendering.numbers fun bytes => (bytes.headD 0).toNat)
          (.value (.text .citext [65])) 3 ≠
        shardBy (shardHash Rendering.numbers fun bytes => (bytes.headD 0).toNat)
          (.value (.text .citext [97])) 3 := by
  decide

/-- Two dates of one instant on the first day of 1970, one hour apart. -/
theorem dates_of_one_day_in_one_shard :
    shardBy (shardHash Rendering.numbers List.length) (.value (.timestampTz 0 0 (16, 14, 96))) 3 =
      shardBy (shardHash Rendering.numbers List.length) (.value (.timestampTz 0 0 (0, 0, 32))) 3 :=
  (@shardBy_eq_iff _ _ _ Rendering.numbers_legible .timestampTz (by decide)
    (.value (.timestampTz 0 0 (16, 14, 96))) (.value (.timestampTz 0 0 (0, 0, 32))) rfl rfl
    rfl).mpr (by unfold HashAlike; decide) List.length 3 (by decide)

end ReadySet.Dataflow
