import Mathlib.Tactic.Common

/-!
Owns the text of a timestamp: `Display` and `FromStr` of `TimestampTz`.

A text is the sequence of the pieces that chrono writes, and a format reads the
sequences of its own pieces. Does not own how chrono writes one piece, the bits
that the fields of a timestamp are packed in, nor eras.

The digits of the second are written after the zone and read before it, so no
time of day with a zone is read back.
-/

namespace ReadySet.Data

/-- `TimestampTz`: an instant in microseconds, with the offset that
`set_offset` gave it, in seconds. -/
structure TimestampTz where
  datetime : Int
  offset : Option Int := none
  dateOnly : Bool := false
  subsecondDigits : Nat := 0

/-- A part of a text; times and offsets are in seconds. -/
inductive Piece where
  | date (day : Int)
  | time (seconds : Int)
  | fraction (micros : Int)
  | zone (offset : Int)

/-- What `format!` makes of microseconds with some digits; six are exact. -/
structure Digits where
  printed : Nat → Int → Int
  exact : ∀ micros, printed 6 micros = micros

namespace TimestampTz

variable (ts : TimestampTz)

def getOffset : Int := ts.offset.getD 0

def dayMicros : Int := 86400 * 1000000

/-- `Display`, of the local time. -/
def display (digits : Digits) : List Piece :=
  let clock := ts.datetime + ts.getOffset * 1000000
  if ts.dateOnly then [.date (clock / dayMicros)]
  else
    [.date (clock / dayMicros), .time (clock % dayMicros / 1000000)] ++
      (if ts.offset.isSome then [.zone ts.getOffset] else []) ++
      if ts.subsecondDigits > 0 then
        [.fraction (digits.printed ts.subsecondDigits (clock % 1000000))]
      else []

/-- `TIMESTAMP_PARSE_FORMAT`. -/
def parseNaive : List Piece → Option Int
  | [.date day, .time seconds] => some (day * dayMicros + seconds * 1000000)
  | [.date day, .time seconds, .fraction micros] =>
    some (day * dayMicros + seconds * 1000000 + micros)
  | _ => none

/-- `TIMESTAMP_TZ_PARSE_FORMAT`: the local time and the offset. -/
def parseTz (text : List Piece) : Option (Int × Int) :=
  match text.getLast? with
  | some (.zone offset) => (parseNaive text.dropLast).map fun clock => (clock, offset)
  | _ => none

/-- `DATE_FORMAT`. -/
def parseDate : List Piece → Option Int
  | [.date day] => some (day * dayMicros)
  | _ => none

def fromStrNoBc (text : List Piece) : Option TimestampTz :=
  match parseTz text with
  | some (clock, offset) => some { datetime := clock - offset * 1000000, offset }
  | none =>
    match parseNaive text with
    | some datetime => some { datetime }
    | none => (parseDate text).map fun datetime => { datetime, dateOnly := true }

/-- **The text of a timestamp is read back**, to an equal one with its offset. -/
def ReadBack (digits : Digits) : Prop :=
  ∃ read, fromStrNoBc (ts.display digits) = some read ∧ read.datetime = ts.datetime ∧
    read.getOffset = ts.getOffset

variable {ts} (digits : Digits)

theorem readBack_date (dateOnly : ts.dateOnly = true) :
    ts.ReadBack digits ↔ ts.getOffset = 0 ∧ ts.datetime % dayMicros = 0 := by
  have read : fromStrNoBc (ts.display digits) = some
      { datetime := (ts.datetime + ts.getOffset * 1000000) / dayMicros * dayMicros
        dateOnly := true } := by
    rw [display, if_pos dateOnly]
    rfl
  rw [ReadBack, read]
  constructor
  · rintro ⟨_, ⟨⟩, same, offset⟩
    have zero : ts.getOffset = 0 := offset.symm
    simp only [dayMicros] at same ⊢
    omega
  · rintro ⟨zero, midnight⟩
    refine ⟨_, rfl, ?_, zero.symm⟩
    simp only [dayMicros] at midnight ⊢
    omega

theorem readBack_plain (dateOnly : ts.dateOnly = false) (unzoned : ts.offset = none)
    (six : ts.subsecondDigits = 6) : ts.ReadBack digits := by
  have zero : ts.getOffset = 0 := by rw [getOffset, unzoned]; rfl
  refine ⟨{ datetime := ts.datetime }, ?_, rfl, zero.symm⟩
  rw [display, dateOnly, unzoned, zero, six, digits.exact]
  refine congrArg (fun datetime => some { datetime : TimestampTz }) ?_
  rw [dayMicros]
  omega

/-- **With six digits, a timestamp is read back exactly if it has no zone**; one
that is only a date, if it is midnight in UTC. -/
theorem readBack_iff (six : ts.subsecondDigits = 6) :
    ts.ReadBack digits ↔
      if ts.dateOnly then ts.getOffset = 0 ∧ ts.datetime % dayMicros = 0
      else ts.offset = none := by
  cases dateOnly : ts.dateOnly with
  | true => exact readBack_date digits dateOnly
  | false =>
    refine ⟨?_, fun unzoned => readBack_plain digits dateOnly unzoned six⟩
    rintro ⟨read, parsed, _⟩
    cases zoned : ts.offset with
    | none => rfl
    | some offset =>
      rw [display, dateOnly, zoned, six] at parsed
      cases parsed

/-- Whatever the number of digits, all that there are. -/
def allDigits : Digits := ⟨fun _ micros => micros, fun _ => rfl⟩

/-- The epoch is written as `1970-01-01 00:00:00+00:00.000000`, which no format
reads. -/
theorem zonedEpoch_unreadable :
    ¬ ReadBack { datetime := 0, offset := some 0, subsecondDigits := 6 } allDigits :=
  fun ⟨_, parsed, _⟩ => nomatch parsed

theorem epoch_readBack : ReadBack { datetime := 0, subsecondDigits := 6 } allDigits :=
  (readBack_iff _ rfl).mpr rfl

end TimestampTz

end ReadySet.Data
