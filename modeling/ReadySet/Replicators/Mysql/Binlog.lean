import ReadySet.Library.Parser
import ReadySet.Node.Base.Operations

/-!
Owns the positions in the binary log of MySQL and the replication offsets they
are kept as: the length of the suffix of the file, its value and the position in
the file, packed into one number.
-/

namespace ReadySet.Replicators.Mysql

open Nat List Library

abbrev ReplicationOffset := Node.ReplicationOffset

structure BinlogPosition where
  binlogFile : String
  position : UInt32
deriving DecidableEq

/-- `str::rsplit_once`. -/
def rsplitOnce (text : String) (separator : Char) : Option (String × String) :=
  match text.toList.reverse.dropWhile (· ≠ separator) with
  | [] => none
  | _ :: before => some (.ofList before.reverse,
      .ofList (text.toList.reverse.takeWhile (· ≠ separator)).reverse)

def BinlogPosition.partialCmp (self other : BinlogPosition) : Option Ordering :=
  if self.binlogFile = other.binlogFile then some (compare self.position.toNat other.position.toNat)
  else do
    let (basename, suffix) ← rsplitOnce self.binlogFile '.'
    let (otherBasename, otherSuffix) ← rsplitOnce other.binlogFile '.'
    if basename ≠ otherBasename then none
    return compare (← parseUnsigned 64 suffix) (← parseUnsigned 64 otherSuffix)

/-- `TryFrom<&BinlogPosition>`, with the text of `ReplicationFailed` as its error. -/
def tryFrom (value : BinlogPosition) : Except String ReplicationOffset :=
  match rsplitOnce value.binlogFile '.' with
  | none => .error ("Invalid binlog name " ++ value.binlogFile)
  | some (basename, suffix) =>
    let invalid := .error ("Invalid binlog suffix " ++ value.binlogFile)
    -- The length in bytes: a suffix with longer characters is no number and fails alike.
    if suffix.length > 17 then invalid
    else match parseUnsigned 128 suffix with
      | none => invalid
      | some number => .ok {
          offset := (suffix.length <<< 123) + (number <<< 64) + value.position.toNat
          replicationLogName := basename }

/-- A number in decimal, padded with zeros to a width. -/
def zeroPadded (width number : Nat) : List Char := leftpad width '0' (toDigits 10 number)

def logFile (basename : String) (width suffix : Nat) : String :=
  basename ++ "." ++ .ofList (zeroPadded width suffix)

/-- `From<&ReplicationOffset>`. -/
def ofOffset (val : ReplicationOffset) : BinlogPosition where
  binlogFile := logFile val.replicationLogName (val.offset >>> 123) ((val.offset >>> 64) % 2 ^ 32)
  position := .ofNat (val.offset % 2 ^ 32)

def partialCmp (self other : ReplicationOffset) : Option Ordering :=
  if other.replicationLogName ≠ self.replicationLogName then none
  else some (compare self.offset other.offset)

/-- A position as MySQL names it. -/
def named (basename : String) (suffix : Nat) (position : UInt32) : BinlogPosition :=
  ⟨logFile basename 6 suffix, position⟩

variable {basename : String} {width suffix other bits : Nat} {position otherPosition : UInt32}

theorem isDigit_of_mem_zeroPadded {c : Char} (mem : c ∈ zeroPadded width suffix) :
    c.isDigit = true := by
  rcases mem_append.mp mem with zero | digit
  · rw [eq_of_mem_replicate zero]
    rfl
  · exact isDigit_of_mem_toDigits (by decide) (by decide) digit

theorem ofDigitChars_zeroPadded : ofDigitChars 10 (zeroPadded width suffix) 0 = suffix := by
  rw [zeroPadded, leftpad, ofDigitChars_append, ofDigitChars_replicate_zero, mul_zero,
    ofDigitChars_toDigits (by decide) (by decide)]

theorem length_zeroPadded :
    (zeroPadded width suffix).length = max width (toDigits 10 suffix).length := by
  simp [zeroPadded, Nat.sub_add_eq_max]

theorem rsplitOnce_logFile : rsplitOnce (logFile basename width suffix) '.' =
    some (basename, .ofList (zeroPadded width suffix)) := by
  have noDot : ∀ c ∈ (zeroPadded width suffix).reverse, (c ≠ '.' : Bool) = true := by
    intro c mem
    have digit := isDigit_of_mem_zeroPadded (mem_reverse.mp mem)
    refine decide_eq_true fun isDot => ?_
    subst isDot
    exact absurd digit (by decide)
  have reversed : (logFile basename width suffix).toList.reverse =
      (zeroPadded width suffix).reverse ++ '.' :: basename.toList.reverse := by
    simp [logFile]
  rw [rsplitOnce, reversed, dropWhile_append_of_pos noDot, takeWhile_append_of_pos noDot]
  simp

theorem parseUnsigned_zeroPadded (fits : suffix < 2 ^ bits) :
    parseUnsigned bits (.ofList (zeroPadded width suffix)) = some suffix := by
  have unsigned : (zeroPadded width suffix).head? ≠ some '+' := fun plus =>
    absurd (isDigit_of_mem_zeroPadded (mem_of_head? plus)) (by decide)
  have nonempty : zeroPadded width suffix ≠ [] := by
    rw [← length_pos_iff, length_zeroPadded]
    exact lt_max_of_lt_right length_toDigits_pos
  rw [parseUnsigned, String.toList_ofList, if_neg unsigned, ofDigitChars_zeroPadded]
  exact if_pos ⟨nonempty, all_eq_true.mpr fun _ => isDigit_of_mem_zeroPadded, fits⟩

theorem logFile_inj {wide : Nat} (same : logFile basename width suffix = logFile basename wide other) :
    suffix = other := by
  have split := congrArg (rsplitOnce · '.') same
  simp only [rsplitOnce_logFile, Option.some.injEq, Prod.mk.injEq, true_and] at split
  have digits := congrArg (ofDigitChars 10 · 0) (String.ofList_injective split)
  simpa only [ofDigitChars_zeroPadded] using digits

/-! ## Offsets of positions -/

/-- How long MySQL writes a suffix. -/
def suffixLength (suffix : Nat) : Nat := max 6 (toDigits 10 suffix).length

theorem suffixLength_mono (le : suffix ≤ other) : suffixLength suffix ≤ suffixLength other := by
  refine max_le_max_left 6 ((length_toDigits_le_iff (by decide) length_toDigits_pos).mpr ?_)
  exact le.trans_lt ((length_toDigits_le_iff (by decide) length_toDigits_pos).mp le_rfl)

def packed (basename : String) (suffix : Nat) (position : UInt32) : ReplicationOffset :=
  ⟨suffixLength suffix * 2 ^ 123 + suffix * 2 ^ 64 + position.toNat, basename⟩

variable (short : suffix < 10 ^ 17)
include short

theorem tryFrom_named :
    tryFrom (named basename suffix position) = .ok (packed basename suffix position) := by
  have length : (String.ofList (zeroPadded 6 suffix)).length = suffixLength suffix := by
    rw [String.length_ofList, length_zeroPadded, suffixLength]
  have few : suffixLength suffix ≤ 17 :=
    max_le (by decide) ((length_toDigits_le_iff (by decide) (by decide)).mpr short)
  have parsed := @parseUnsigned_zeroPadded 6 suffix 128 (short.trans (by decide))
  rw [tryFrom, named, rsplitOnce_logFile]
  simp only [length, not_lt.mpr few, if_false, parsed, shiftLeft_eq]
  rfl

/-- Reading an offset back keeps 32 bits of the suffix. -/
theorem ofOffset_packed_iff :
    ofOffset (packed basename suffix position) = named basename suffix position ↔
      suffix < 2 ^ 32 := by
  have small := position.toNat_lt
  have length : (packed basename suffix position).offset >>> 123 = suffixLength suffix := by
    simp only [packed, shiftRight_eq_div_pow]
    omega
  have number : (packed basename suffix position).offset >>> 64 % 2 ^ 32 = suffix % 2 ^ 32 := by
    simp only [packed, shiftRight_eq_div_pow]
    omega
  have low : (packed basename suffix position).offset % 2 ^ 32 = position.toNat := by
    simp only [packed]
    omega
  rw [ofOffset, length, number, low, UInt32.ofNat_toNat, named, BinlogPosition.mk.injEq,
    and_iff_left rfl]
  constructor
  · intro same
    exact logFile_inj same ▸ mod_lt suffix (by decide)
  · intro fits
    have zeros : suffixLength suffix - (toDigits 10 suffix).length =
        6 - (toDigits 10 suffix).length := by
      rw [suffixLength]
      omega
    rw [mod_eq_of_lt fits, logFile, logFile, zeroPadded, zeroPadded, leftpad, leftpad, zeros]
    rfl

variable (otherShort : other < 10 ^ 17)
include otherShort

/-- Offsets are ordered as the positions they are packed from. -/
theorem partialCmp_packed :
    partialCmp (packed basename suffix position) (packed basename other otherPosition) = some .lt ↔
      (named basename suffix position).partialCmp (named basename other otherPosition) =
        some .lt := by
  have small := position.toNat_lt
  have otherSmall := otherPosition.toNat_lt
  rw [packed, packed, partialCmp, if_neg (not_not.mpr rfl), Option.some.injEq, compare_lt_iff_lt,
    BinlogPosition.partialCmp]
  by_cases same : suffix = other
  · subst same
    simp [named, compare_lt_iff_lt]
  · have apart : logFile basename 6 suffix ≠ logFile basename 6 other := fun equal =>
      same (logFile_inj equal)
    have parsed := @parseUnsigned_zeroPadded 6 suffix 64 (short.trans (by decide))
    have otherParsed := @parseUnsigned_zeroPadded 6 other 64 (otherShort.trans (by decide))
    simp [named, apart, rsplitOnce_logFile, parsed, otherParsed, compare_lt_iff_lt]
    rcases lt_or_gt_of_ne same with less | more
    · have lengths := suffixLength_mono less.le
      omega
    · have lengths := suffixLength_mono more.le
      omega

/-- **A position is read back from its offset, and offsets are ordered as positions
are, exactly if the suffix of the position fits into 32 bits.** -/
theorem position_offset_iff :
    (∃ offset otherOffset, tryFrom (named basename suffix position) = .ok offset ∧
      tryFrom (named basename other otherPosition) = .ok otherOffset ∧
      ofOffset offset = named basename suffix position ∧
      (partialCmp offset otherOffset = some .lt ↔
        (named basename suffix position).partialCmp (named basename other otherPosition) =
          some .lt)) ↔ suffix < 2 ^ 32 := by
  rw [tryFrom_named short, tryFrom_named otherShort]
  constructor
  · rintro ⟨offset, otherOffset, converted, -, back, -⟩
    obtain rfl := Except.ok.inj converted
    exact (ofOffset_packed_iff short).mp back
  · intro small
    exact ⟨_, _, rfl, rfl, (ofOffset_packed_iff short).mpr small, partialCmp_packed short otherShort⟩

omit short otherShort

theorem long_suffix_lost : ∃ offset, tryFrom (named "bin" (2 ^ 32) 4) = .ok offset ∧
    ofOffset offset ≠ named "bin" (2 ^ 32) 4 :=
  ⟨packed "bin" (2 ^ 32) 4, by decide, by decide⟩

theorem first_file_offset : ∃ offset, tryFrom ⟨"bin.000001", 4⟩ = .ok offset ∧
    ofOffset offset = ⟨"bin.000001", 4⟩ := by
  obtain ⟨offset, _, converted, _, back, _⟩ := (@position_offset_iff "bin" 1 2 4 4 (by decide)
    (by decide)).mpr (by decide)
  exact ⟨offset, converted, back⟩

end ReadySet.Replicators.Mysql
