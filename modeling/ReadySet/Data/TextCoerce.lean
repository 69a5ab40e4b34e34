import ReadySet.Data.Datum
import ReadySet.Dataflow.Processing

/-!
Owns the coercions of texts (`TextCoerce::coerce_to`) and of enum values
(`coerce_enum`) to the text types, and when they cut and pad by characters.

A string is the list of its characters; the source's `len` counts UTF-8 bytes.
Does not own the coercions to types that are not text types.
-/

namespace ReadySet.Data

open Dataflow Library List

/-- The text types of `DfType`. -/
inductive TextType where
  | text (collation : Collation)
  | varChar (len : Nat)
  | char (len : Nat)
deriving DecidableEq, Repr

/-- A text value; `DfValue::from` gives it the default collation. -/
structure TextValue where
  str : List Char
  collation : Collation := .utf8
deriving DecidableEq, Repr

/-- `str.len()`. -/
def byteLen (str : List Char) : Nat := (str.map Char.utf8Size).sum

/-- `&str[..stop]`, which panics inside a character and beyond the end. -/
def sliceTo : Nat → List Char → ReadySetResult (List Char)
  | 0, _ => .ok []
  | _ + 1, [] => .error (.panicked "byte index is out of bounds")
  | stop + 1, char :: rest =>
    if char.utf8Size ≤ stop + 1 then (sliceTo (stop + 1 - char.utf8Size) rest).map (char :: ·)
    else .error (.panicked "byte index is not a char boundary")

/-- A string with spaces for the bytes it is short of a length. -/
def padTo (len : Nat) (str : List Char) : List Char := str ++ replicate (len - byteLen str) ' '

def TextValue.coerceTo (value : TextValue) : TextType → TextValue
  | .text collation => { value with collation }
  | .varChar len =>
    if byteLen value.str ≤ len then value else { str := value.str.take len }
  | .char len =>
    if len = byteLen value.str then value
    else if byteLen value.str < len then { str := padTo len value.str }
    else { str := value.str.take len }

def coerceEnum (enumValue : Nat) (enumElements : List (List Char)) (toTy : TextType) :
    ReadySetResult TextValue :=
  if enumValue = 0 then .ok { str := [] }
  else match enumElements[enumValue - 1]? with
    | none => .ok { str := [] }
    | some label =>
      let truncated (len : Nat) : ReadySetResult TextValue :=
        if len < byteLen label then do return { str := ← sliceTo len label }
        else .ok { str := label }
      match toTy with
      | .char len => if byteLen label < len then .ok { str := padTo len label } else truncated len
      | .varChar len => truncated len
      | .text _ => .ok { str := label }

open TextValue (coerceTo)

/-- A value that reads as a string: a text, or an enum value with its labels. -/
inductive Source where
  | text (collation : Collation)
  | enum (enumValue : Nat) (enumElements : List (List Char))

/-- The value reads as the string. -/
def Source.Reads (str : List Char) : Source → Prop
  | .text _ => True
  | .enum enumValue enumElements => 0 < enumValue ∧ enumElements[enumValue - 1]? = some str

/-- The coercion of a value that reads as the string. -/
def Source.coerce (str : List Char) (toTy : TextType) : Source → ReadySetResult TextValue
  | .text collation => .ok (TextValue.coerceTo { str, collation } toTy)
  | .enum enumValue enumElements => coerceEnum enumValue enumElements toTy

/-- What a coercion to `CHAR(len)` or `VARCHAR(len)` is for. -/
def characters (str : List Char) : TextType → List Char
  | .text _ => str
  | .varChar len => str.take len
  | .char len => str.take len ++ replicate (len - str.length) ' '

/-- The coercion yields the characters that the type asks for, and is stable. -/
def Source.Fits (str : List Char) (toTy : TextType) (source : Source) : Prop :=
  ∃ value, source.coerce str toTy = .ok value ∧ value.str = characters str toTy ∧
    value.coerceTo toTy = value

/-! ## Bytes and characters -/

section

variable {str taken : List Char} {len : Nat}

@[simp] theorem byteLen_cons (char : Char) :
    byteLen (char :: str) = char.utf8Size + byteLen str := by
  simp [byteLen]

@[simp] theorem byteLen_append (rest : List Char) :
    byteLen (str ++ rest) = byteLen str + byteLen rest := by
  simp [byteLen]

theorem length_le_byteLen (str : List Char) : str.length ≤ byteLen str := by
  induction str with
  | nil => exact Nat.zero_le _
  | cons char str ih =>
    have := char.utf8Size_pos
    rw [length_cons, byteLen_cons]
    omega

theorem byteLen_eq_length_iff : byteLen str = str.length ↔ ∀ char ∈ str, char.utf8Size = 1 := by
  induction str with
  | nil => simp [byteLen]
  | cons char str ih =>
    have := char.utf8Size_pos
    have := length_le_byteLen str
    rw [byteLen_cons, length_cons, forall_mem_cons, ← ih]
    omega

theorem byteLen_padTo (short : byteLen str < len) : byteLen (padTo len str) = len := by
  have spaces : byteLen (replicate (len - byteLen str) ' ') = len - byteLen str := by
    rw [byteLen_eq_length_iff.mpr (by simp +contextual [Char.utf8Size]), length_replicate]
  rw [padTo, byteLen_append, spaces]
  omega

theorem byteLen_sliceTo (sliced : sliceTo len str = .ok taken) : byteLen taken = len := by
  fun_induction sliceTo len str generalizing taken with
  | case1 => cases sliced; rfl
  | case2 | case4 => cases sliced
  | case3 stop char rest fits ih =>
    obtain ⟨front, inner, rfl⟩ := map_eq_ok.mp sliced
    rw [byteLen_cons, ih inner]
    omega

theorem sliceTo_take (single : ∀ char ∈ str.take len, char.utf8Size = 1)
    (enough : len ≤ str.length) : sliceTo len str = .ok (str.take len) := by
  fun_induction sliceTo len str with
  | case1 => rfl
  | case2 => exact absurd enough (by simp)
  | case3 stop char rest _ ih =>
    rw [take_succ_cons, forall_mem_cons] at single
    rw [single.1, Nat.add_sub_cancel] at ih ⊢
    rw [ih single.2 (Nat.le_of_succ_le_succ enough)]
    rfl
  | case4 stop char rest wide =>
    rw [take_succ_cons, forall_mem_cons] at single
    omega

end

/-! ## Texts -/

section

variable {str : List Char} {len : Nat} {value : TextValue} {collation : Collation}

theorem length_characters_char : (characters str (.char len)).length = len := by
  rw [characters, length_append, length_take, length_replicate]
  omega

theorem characters_char_of_le (enough : len ≤ str.length) :
    characters str (.char len) = str.take len := by
  rw [characters, Nat.sub_eq_zero_of_le enough, replicate_zero, append_nil]

/-- A string of single bytes is padded by as many spaces as it lacks characters. -/
theorem padTo_eq_characters (bytes : byteLen str = str.length) (short : byteLen str ≤ len) :
    padTo len str = characters str (.char len) := by
  rw [padTo, bytes, characters, take_of_length_le (bytes ▸ short)]

/-- A value of as many bytes as the type has characters stays as it is. -/
theorem TextValue.coerceTo_self (full : byteLen value.str = len) :
    value.coerceTo (.char len) = value ∧ value.coerceTo (.varChar len) = value := by
  simp [coerceTo, full]

/-- So does one that has been cut by characters. -/
theorem TextValue.coerceTo_take (enough : len ≤ str.length) :
    coerceTo { str := str.take len } (.char len) = { str := str.take len } := by
  have bytes := length_le_byteLen (str.take len)
  rw [length_take, Nat.min_eq_left enough] at bytes
  simp [coerceTo, Nat.not_lt_of_ge bytes]

/-- A text always fits into `VARCHAR(len)`. -/
theorem Source.fits_text_varChar : (Source.text collation).Fits str (.varChar len) := by
  rcases Nat.lt_or_ge len (byteLen str) with long | short
  · refine ⟨{ str := str.take len }, ?_, rfl, ?_⟩
    · simp [coerce, coerceTo, Nat.not_le_of_gt long]
    · simp [coerceTo]
  · refine ⟨{ str, collation }, ?_, ?_, ?_⟩
    · simp [coerce, coerceTo, short]
    · exact (take_of_length_le ((length_le_byteLen str).trans short)).symm
    · simp [coerceTo, short]

/-- A text fits into `CHAR(len)` if it is cut, or padded by its characters. -/
theorem Source.fits_text_char_iff : (Source.text collation).Fits str (.char len) ↔
    len ≤ str.length ∨ ∀ char ∈ str, char.utf8Size = 1 := by
  have bytes := length_le_byteLen str
  rw [← byteLen_eq_length_iff]
  constructor
  · rintro ⟨value, coerced, cut, -⟩
    have length : value.str.length = len := cut ▸ length_characters_char
    obtain rfl := Except.ok.inj coerced
    simp only [coerceTo] at length
    split at length
    case isTrue full => exact .inl length.ge
    case isFalse =>
      split at length
      case isTrue short =>
        rw [padTo, length_append, length_replicate] at length
        omega
      case isFalse =>
        rw [length_take] at length
        omega
  · intro counted
    rcases lt_trichotomy (byteLen str) len with short | full | long
    · have single : byteLen str = str.length := by omega
      exact ⟨{ str := padTo len str }, by simp [coerce, coerceTo, short, short.ne'],
        padTo_eq_characters single short.le, (TextValue.coerceTo_self (byteLen_padTo short)).1⟩
    · have enough : str.length = len := by omega
      refine ⟨{ str, collation }, by simp [coerce, coerceTo, full], ?_,
        (TextValue.coerceTo_self full).1⟩
      rw [characters_char_of_le enough.ge, take_of_length_le enough.le]
    · have enough : len ≤ str.length := by omega
      refine ⟨{ str := str.take len }, ?_, (characters_char_of_le enough).symm,
        TextValue.coerceTo_take enough⟩
      simp [coerce, coerceTo, long.ne, Nat.not_lt_of_gt long]

end

/-! ## Labels -/

section

variable {str : List Char} {len enumValue : Nat} {enumElements : List (List Char)}
  {value : TextValue}

theorem le_length_of_single (single : ∀ char ∈ str.take len, char.utf8Size = 1)
    (long : len < byteLen str) : len ≤ str.length := by
  by_contra short
  rw [take_of_length_le (Nat.le_of_not_le short)] at single
  have bytes := byteLen_eq_length_iff.mpr single
  omega

/-- `&label[..len]` is the first characters exactly if they take one byte each. -/
theorem sliceTo_eq_take_iff (long : len < byteLen str) :
    sliceTo len str = .ok (str.take len) ↔ ∀ char ∈ str.take len, char.utf8Size = 1 := by
  constructor
  · intro sliced
    have full := byteLen_sliceTo sliced
    have enough : len ≤ str.length := by
      by_contra short
      rw [take_of_length_le (Nat.le_of_not_le short)] at full
      omega
    rw [← byteLen_eq_length_iff, full, length_take, Nat.min_eq_left enough]
  · intro single
    exact sliceTo_take single (le_length_of_single single long)

variable (reads : (Source.enum enumValue enumElements).Reads str)

include reads

theorem Source.coerce_enum_long (long : len < byteLen str) :
    ((Source.enum enumValue enumElements).coerce str (.char len) =
        (sliceTo len str).map fun taken => { str := taken }) ∧
      (Source.enum enumValue enumElements).coerce str (.varChar len) =
        (sliceTo len str).map fun taken => { str := taken } := by
  cases sliced : sliceTo len str <;>
    simp [coerce, coerceEnum, reads.1.ne', reads.2, long, Nat.not_lt_of_gt long, sliced] <;> rfl

/-- A label fits into `VARCHAR(len)` if it is not cut, or cut into single bytes. -/
theorem Source.fits_enum_varChar_iff :
    (Source.enum enumValue enumElements).Fits str (.varChar len) ↔
      byteLen str ≤ len ∨ ∀ char ∈ str.take len, char.utf8Size = 1 := by
  rcases Nat.lt_or_ge len (byteLen str) with long | short
  · rw [or_iff_right (Nat.not_le_of_gt long), ← sliceTo_eq_take_iff long, Fits,
      (coerce_enum_long reads long).2]
    constructor
    · rintro ⟨value, coerced, cut, -⟩
      obtain ⟨taken, sliced, rfl⟩ := map_eq_ok.mp coerced
      rw [sliced]
      exact congrArg Except.ok cut
    · intro sliced
      rw [sliced]
      exact ⟨_, rfl, rfl, (TextValue.coerceTo_self (byteLen_sliceTo sliced)).2⟩
  · refine iff_of_true ⟨{ str }, ?_, ?_, ?_⟩ (.inl short)
    · simp [coerce, coerceEnum, reads.1.ne', reads.2, short]
    · exact (take_of_length_le ((length_le_byteLen str).trans short)).symm
    · simp [coerceTo, short]

theorem Source.byteLen_coerce_enum_char
    (coerced : (Source.enum enumValue enumElements).coerce str (.char len) = .ok value) :
    byteLen value.str = len := by
  rcases Nat.lt_or_ge len (byteLen str) with long | short
  · rw [(coerce_enum_long reads long).1] at coerced
    obtain ⟨taken, sliced, rfl⟩ := map_eq_ok.mp coerced
    exact byteLen_sliceTo sliced
  · simp only [coerce, coerceEnum, reads.1.ne', if_false, reads.2, Nat.not_lt_of_ge short] at coerced
    split at coerced
    case isTrue less =>
      obtain rfl := Except.ok.inj coerced
      exact byteLen_padTo less
    case isFalse notLess =>
      obtain rfl := Except.ok.inj coerced
      exact short.antisymm (Nat.le_of_not_lt notLess)

/-- A label fits into `CHAR(len)` if its first characters take one byte each. -/
theorem Source.fits_enum_char_iff :
    (Source.enum enumValue enumElements).Fits str (.char len) ↔
      ∀ char ∈ str.take len, char.utf8Size = 1 := by
  constructor
  · rintro ⟨value, coerced, cut, -⟩
    have length : value.str.length = len := cut ▸ length_characters_char
    have bytes := byteLen_coerce_enum_char reads coerced
    have single := byteLen_eq_length_iff.mp (bytes.trans length.symm)
    rw [cut] at single
    exact fun char mem => single char (mem_append_left _ mem)
  · intro single
    rcases lt_trichotomy (byteLen str) len with short | full | long
    · have whole : str.take len = str := take_of_length_le ((length_le_byteLen str).trans short.le)
      refine ⟨{ str := padTo len str }, ?_, ?_, (TextValue.coerceTo_self (byteLen_padTo short)).1⟩
      · simp [coerce, coerceEnum, reads.1.ne', reads.2, short]
      · exact padTo_eq_characters (byteLen_eq_length_iff.mpr (whole ▸ single)) short.le
    · have whole : str.take len = str := take_of_length_le ((length_le_byteLen str).trans full.le)
      have bytes := byteLen_eq_length_iff.mpr (whole ▸ single)
      refine ⟨{ str }, ?_, ?_, (TextValue.coerceTo_self full).1⟩
      · simp [coerce, coerceEnum, reads.1.ne', reads.2, full]
      · rw [characters_char_of_le (by omega), whole]
    · have sliced := (sliceTo_eq_take_iff long).mpr single
      refine ⟨{ str := str.take len }, ?_, ?_,
        (TextValue.coerceTo_self (byteLen_sliceTo sliced)).1⟩
      · rw [(coerce_enum_long reads long).1, sliced]
        rfl
      · exact (characters_char_of_le (le_length_of_single single long)).symm

end

/-- **Coercions to `CHAR(len)` and `VARCHAR(len)`.** Texts and enum values that
read as a string are cut and padded by characters exactly if the first `len`
characters of the string take one byte each. -/
theorem Source.fits_iff (str : List Char) (len : Nat) :
    (∀ source : Source, source.Reads str →
      source.Fits str (.char len) ∧ source.Fits str (.varChar len)) ↔
      ∀ char ∈ str.take len, char.utf8Size = 1 := by
  constructor
  · intro fits
    have label : (Source.enum 1 [str]).Reads str := ⟨Nat.one_pos, rfl⟩
    exact (fits_enum_char_iff label).mp (fits _ label).1
  · intro single source reads
    cases source with
    | text collation =>
      refine ⟨fits_text_char_iff.mpr ?_, fits_text_varChar⟩
      rcases Nat.le_total len str.length with enough | all
      · exact .inl enough
      · exact .inr (take_of_length_le all ▸ single)
    | enum enumValue enumElements =>
      exact ⟨(fits_enum_char_iff reads).mpr single, (fits_enum_varChar_iff reads).mpr (.inr single)⟩

/-- An accented letter in `CHAR(3)` is padded to two characters. -/
theorem accented_short : ¬ ∀ source : Source, source.Reads ['é'] →
    source.Fits ['é'] (.char 3) ∧ source.Fits ['é'] (.varChar 3) := by
  intro fits
  obtain ⟨⟨value, coerced, cut, -⟩, -⟩ := fits (.text .utf8) trivial
  cases coerced
  exact absurd cut (by decide)

end ReadySet.Data
