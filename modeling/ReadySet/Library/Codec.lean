import Mathlib

/-!
Owns self-delimiting byte formats: a codec writes a value so that a reader can
take it off the front of any longer byte string. That one law makes encodings
injective and free of prefixes, and it is closed under pairs, sequences and
length-prefixed blocks.

Owns the variable-length integers of bincode's default options, as documented:
one byte below 251, else a marker and two, four, eight or sixteen little-endian
bytes.
-/

namespace ReadySet.Library

open List

universe u v

abbrev Bytes := List UInt8

/-- A byte format whose values end where they end, whatever follows. -/
structure Codec (α : Type u) where
  encode : α → Bytes
  decode : Bytes → Option (α × Bytes)
  decode_encode : ∀ value rest, decode (encode value ++ rest) = some (value, rest)

namespace Codec

variable {α : Type u} {β : Type v} {left right : α}

/-- What follows a value does not blur where it ends. -/
theorem append_inj (codec : Codec α) {afterLeft afterRight : Bytes}
    (same : codec.encode left ++ afterLeft = codec.encode right ++ afterRight) :
    left = right ∧ afterLeft = afterRight := by
  have read := codec.decode_encode left afterLeft
  rw [same, codec.decode_encode right afterRight] at read
  obtain ⟨values, rests⟩ := Prod.mk.inj (Option.some.inj read)
  exact ⟨values.symm, rests.symm⟩

theorem encode_injective (codec : Codec α) : Function.Injective codec.encode := by
  intro left right same
  have padded : codec.encode left ++ [] = codec.encode right ++ [] := by rw [same]
  exact (codec.append_inj padded).1

/-- No encoding starts another one, even with more after it. -/
theorem eq_of_starts (codec : Codec α) {after : Bytes}
    (starts : codec.encode left <+: codec.encode right ++ after) : left = right := by
  obtain ⟨rest, whole⟩ := starts
  exact (codec.append_inj whole).1

/-! ## Composition -/

def byte : Codec UInt8 where
  encode value := [value]
  decode
    | [] => none
    | value :: rest => some (value, rest)
  decode_encode _ _ := rfl

def pair (first : Codec α) (second : Codec β) : Codec (α × β) where
  encode value := first.encode value.1 ++ second.encode value.2
  decode bytes := (first.decode bytes).bind fun (left, middle) =>
    (second.decode middle).map fun (right, rest) => ((left, right), rest)
  decode_encode value rest := by
    rw [List.append_assoc, first.decode_encode]
    simp [second.decode_encode]

/-- A codec read through a representation of its values. -/
def through (codec : Codec β) (represent : α → β) (restore : β → α)
    (law : ∀ value, restore (represent value) = value) : Codec α where
  encode value := codec.encode (represent value)
  decode bytes := (codec.decode bytes).map fun (value, rest) => (restore value, rest)
  decode_encode value rest := by simp [codec.decode_encode, law]

/-- As many values as asked for, one after another. -/
def readMany (codec : Codec α) : Nat → Bytes → Option (List α × Bytes)
  | 0, bytes => some ([], bytes)
  | count + 1, bytes => (codec.decode bytes).bind fun (value, middle) =>
    (readMany codec count middle).map fun (values, rest) => (value :: values, rest)

theorem readMany_encode (codec : Codec α) (values : List α) (rest : Bytes) :
    codec.readMany values.length (values.flatMap codec.encode ++ rest) = some (values, rest) := by
  induction values with
  | nil => rfl
  | cons value values ih =>
    rw [flatMap_cons, append_assoc, length_cons, readMany, codec.decode_encode]
    simp [ih]

end Codec

/-! ## Little-endian numbers -/

def littleEndian : Nat → Nat → Bytes
  | 0, _ => []
  | width + 1, number => UInt8.ofNat (number % 256) :: littleEndian width (number / 256)

def ofLittleEndian : Bytes → Nat
  | [] => 0
  | low :: high => low.toNat + 256 * ofLittleEndian high

@[simp] theorem length_littleEndian (width number : Nat) :
    (littleEndian width number).length = width := by
  induction width generalizing number with
  | zero => rfl
  | succ width ih => simp [littleEndian, ih]

theorem ofLittleEndian_littleEndian {width number : Nat} (fits : number < 256 ^ width) :
    ofLittleEndian (littleEndian width number) = number := by
  induction width generalizing number with
  | zero =>
    simp only [littleEndian, ofLittleEndian]
    omega
  | succ width ih =>
    have high : number / 256 < 256 ^ width := by
      exact Nat.div_lt_of_lt_mul (by rwa [Nat.mul_comm])
    have low : (UInt8.ofNat (number % 256)).toNat = number % 256 := by
      rw [UInt8.toNat_ofNat']
      omega
    rw [littleEndian, ofLittleEndian, ih high, low]
    exact Nat.mod_add_div number 256

/-- The next bytes as one number. -/
def readLittleEndian (width : Nat) (bytes : Bytes) : Option (Nat × Bytes) :=
  if width ≤ bytes.length then some (ofLittleEndian (bytes.take width), bytes.drop width) else none

theorem readLittleEndian_append {width number : Nat} (fits : number < 256 ^ width) (rest : Bytes) :
    readLittleEndian width (littleEndian width number ++ rest) = some (number, rest) := by
  have long : width ≤ (littleEndian width number ++ rest).length := by simp
  rw [readLittleEndian, if_pos long, take_left' (length_littleEndian width number),
    drop_left' (length_littleEndian width number), ofLittleEndian_littleEndian fits]

/-! ## Variable-length numbers -/

/-- A count as that many ones and a zero. -/
def unary (count : Nat) : Bytes := List.replicate count 1 ++ [0]

def readUnary : Bytes → Option (Nat × Bytes)
  | [] => none
  | head :: rest =>
    if head = 0 then some (0, rest)
    else (readUnary rest).map fun (count, after) => (count + 1, after)

theorem readUnary_unary (count : Nat) (rest : Bytes) :
    readUnary (unary count ++ rest) = some (count, rest) := by
  induction count with
  | zero => simp [unary, readUnary]
  | succ count ih =>
    rw [unary, append_assoc] at ih
    rw [unary, replicate_succ, append_assoc, cons_append, readUnary, ih]
    rfl

/-- bincode's `VarintEncoding`. Its numbers end at `u128`; one past it, which
no length or integer of a program reaches, is written after the unused marker
255, so that every natural number has a form. -/
def writeVarint (number : Nat) : Bytes :=
  if number < 251 then [UInt8.ofNat number]
  else if number < 256 ^ 2 then 251 :: littleEndian 2 number
  else if number < 256 ^ 4 then 252 :: littleEndian 4 number
  else if number < 256 ^ 8 then 253 :: littleEndian 8 number
  else if number < 256 ^ 16 then 254 :: littleEndian 16 number
  else 255 :: (littleEndian 16 (number % 256 ^ 16) ++ unary (number / 256 ^ 16))

def readVarint : Bytes → Option (Nat × Bytes)
  | [] => none
  | head :: rest =>
    if head < 251 then some (head.toNat, rest)
    else if head = 251 then readLittleEndian 2 rest
    else if head = 252 then readLittleEndian 4 rest
    else if head = 253 then readLittleEndian 8 rest
    else if head = 254 then readLittleEndian 16 rest
    else (readLittleEndian 16 rest).bind fun (low, middle) =>
      (readUnary middle).map fun (high, after) => (low + 256 ^ 16 * high, after)

/-- What `writeVarint` writes is read back, whatever follows. -/
theorem readVarint_writeVarint (number : Nat) (rest : Bytes) :
    readVarint (writeVarint number ++ rest) = some (number, rest) := by
  rw [writeVarint]
  split_ifs with one two four eight sixteen
  · have small : (UInt8.ofNat number).toNat = number := by
      rw [UInt8.toNat_ofNat']
      omega
    have below : UInt8.ofNat number < 251 := by
      rw [UInt8.lt_iff_toNat_lt, small]
      exact one
    simp [readVarint, below, small]
  · exact readLittleEndian_append two rest
  · exact readLittleEndian_append four rest
  · exact readLittleEndian_append eight rest
  · exact readLittleEndian_append sixteen rest
  · have low : number % 256 ^ 16 < 256 ^ 16 := Nat.mod_lt _ (by positivity)
    have read : readVarint (255 :: (littleEndian 16 (number % 256 ^ 16) ++
        unary (number / 256 ^ 16)) ++ rest) =
        (readLittleEndian 16 (littleEndian 16 (number % 256 ^ 16) ++
          (unary (number / 256 ^ 16) ++ rest))).bind fun (low, middle) =>
            (readUnary middle).map fun (high, after) => (low + 256 ^ 16 * high, after) := by
      rfl
    rw [read, readLittleEndian_append low, Option.bind_some]
    simp [readUnary_unary, Nat.mod_add_div]

namespace Codec

variable {α : Type u}

def varint : Codec Nat where
  encode := writeVarint
  decode := readVarint
  decode_encode := readVarint_writeVarint

/-- bincode's zigzag form of signed numbers. -/
def signed : Codec Int :=
  varint.through (fun number => if 0 ≤ number then 2 * number.toNat else 2 * (-number - 1).toNat + 1)
    (fun code => if code % 2 = 0 then ((code / 2 : Nat) : Int) else -((code / 2 : Nat) : Int) - 1)
    (by
      intro number
      split_ifs <;> omega)

def bitVec (width : Nat) : Codec (BitVec width) :=
  varint.through BitVec.toNat (BitVec.ofNat width) (fun value => by simp)

/-- A sequence, after its length. -/
def sequence (codec : Codec α) : Codec (List α) where
  encode values := writeVarint values.length ++ values.flatMap codec.encode
  decode bytes := (readVarint bytes).bind fun (count, middle) => codec.readMany count middle
  decode_encode values rest := by
    rw [List.append_assoc, readVarint_writeVarint]
    exact codec.readMany_encode values rest

/-- A block of bytes, after its length. -/
def block : Codec Bytes where
  encode bytes := writeVarint bytes.length ++ bytes
  decode bytes := (readVarint bytes).bind fun (count, middle) =>
    if count ≤ middle.length then some (middle.take count, middle.drop count) else none
  decode_encode value rest := by
    rw [List.append_assoc, readVarint_writeVarint]
    simp

end Codec

end ReadySet.Library
