import ReadySet.MysqlSrv.PacketWriting

/-!
Owns what a `PacketReader` finds on the wire. Every input of the parser is a part
of the frames of a packet and what follows it: a part that is too short makes it
ask for more, and a part that has the whole packet makes it return the packet
(`packetFrom_part`, `packetFrom_whole`). So `next` returns the packets one by one,
whatever pieces the transport gives (`nextTimes_iff`).

With overflow checks, the parser panics at a packet that goes on after the frame
with number 255 (`packetFrom_overflow`).
-/

namespace ReadySet.MysqlSrv

open Library PacketReader List

/-! ## Frames -/

theorem onepacket_cons (a b c seq : UInt8) (tail : Bytes) :
    onepacket (a :: b :: c :: seq :: tail) =
      (take (ofLittleEndian [a, b, c]) tail).map fun result => (result.1, seq, result.2) :=
  bind_pure_comp (fun result : Bytes × Bytes => (result.1, seq, result.2))
    (take (ofLittleEndian [a, b, c]) tail)

theorem fullpacket_cons (seq : UInt8) (tail : Bytes) :
    fullpacket (255 :: 255 :: 255 :: seq :: tail) =
      (take u24Max tail).map fun result => (result.1, seq, result.2) :=
  bind_pure_comp (fun result : Bytes × Bytes => (result.1, seq, result.2)) (take u24Max tail)

variable {i : Bytes} {count : Nat}

theorem fullpacket_of_tag (other : i.take 3 ≠ [255, 255, 255]) : fullpacket i = .error .error := by
  have missing : tag [0xff, 0xff, 0xff] i = .error .error := if_neg other
  rw [fullpacket, missing]
  rfl

theorem onepacket_of_length_lt (short : i.length < 4) : onepacket i = .error .error := by
  match i, short with
  | [], _ => rfl
  | [_], _ => rfl
  | [_, _], _ => rfl
  | [_, _, _], _ => rfl

theorem take_of_le (long : count ≤ i.length) : take count i = .ok (i.drop count, i.take count) :=
  if_pos long

theorem take_of_lt (short : i.length < count) : take count i = .error .error :=
  if_neg (Nat.not_le.mpr short)

theorem fullpacket_of_length_lt (short : i.length < u24Max + 4) : fullpacket i = .error .error := by
  by_cases tagged : i.take 3 = [255, 255, 255]
  · match i, tagged, short with
    | [_, _, _], tagged, _ =>
      obtain ⟨rfl, rfl, rfl⟩ : _ ∧ _ ∧ _ := by simpa using tagged
      rfl
    | _ :: _ :: _ :: seq :: tail, tagged, short =>
      obtain ⟨rfl, rfl, rfl⟩ : _ ∧ _ ∧ _ := by simpa using tagged
      simp only [length_cons] at short
      rw [fullpacket_cons, take_of_lt (by omega)]
      rfl
  · exact fullpacket_of_tag tagged

variable {seq : UInt8} {more rest body : Bytes}

/-- A part of a frame and what follows it: it has not even the header, or it has
the header and a part of the rest. -/
theorem cut_frame (cut : i ++ more = frame seq body ++ rest) :
    i.length < 4 ∨ ∃ a b c tail, i = a :: b :: c :: seq :: tail ∧
      [a, b, c] = littleEndian 3 body.length ∧ tail ++ more = body ++ rest := by
  match i, cut with
  | [], _ | [_], _ | [_, _], _ | [_, _, _], _ => exact .inl (by simp)
  | a :: b :: c :: s :: tail, cut =>
    simp only [frame, littleEndian, cons_append, nil_append, cons.injEq] at cut
    obtain ⟨first, second, third, rfl, others⟩ := cut
    refine .inr ⟨a, b, c, tail, rfl, ?_, others⟩
    rw [first, second, third]
    rfl

theorem append_of_le {tail : Bytes} (cut : tail ++ more = body ++ rest)
    (long : body.length ≤ tail.length) :
    ∃ others, tail = body ++ others ∧ others ++ more = rest := by
  obtain ⟨others, rfl, same⟩ | ⟨others, rfl, same⟩ := append_eq_append_iff.mp cut
  · rw [length_append] at long
    have none : others = [] := length_eq_zero_iff.mp (by omega)
    subst none
    exact ⟨[], by simp, by simpa using same⟩
  · exact ⟨others, rfl, same.symm⟩

section

variable (cut : i ++ more = frame seq body ++ rest)

include cut

theorem onepacket_long (fits : body.length < 256 ^ 3) (long : body.length + 4 ≤ i.length) :
    ∃ others, i = frame seq body ++ others ∧ others ++ more = rest ∧
      onepacket i = .ok (others, seq, body) := by
  obtain ⟨others, rfl, same⟩ := append_of_le cut (by rw [length_frame]; omega)
  refine ⟨others, rfl, same, (onepacket_cons _ _ _ _ _).trans ?_⟩
  change (take (ofLittleEndian (littleEndian 3 body.length)) (body ++ others)).map _ = _
  rw [ofLittleEndian_littleEndian fits, take_of_le (by simp), drop_left, take_left]
  rfl

theorem onepacket_part (fits : body.length < 256 ^ 3) (short : i.length < body.length + 4) :
    onepacket i = .error .error := by
  obtain headless | ⟨a, b, c, tail, rfl, digits, _⟩ := cut_frame cut
  · exact onepacket_of_length_lt headless
  · simp only [length_cons] at short
    rw [onepacket_cons, digits, ofLittleEndian_littleEndian fits, take_of_lt (by omega)]
    rfl

theorem fullpacket_long (full : body.length = u24Max) (long : u24Max + 4 ≤ i.length) :
    ∃ others, i = frame seq body ++ others ∧ others ++ more = rest ∧
      fullpacket i = .ok (others, seq, body) := by
  obtain ⟨others, rfl, same⟩ := append_of_le cut (by rw [length_frame]; omega)
  have isTag : littleEndian 3 body.length = [255, 255, 255] := by
    rw [full, u24Max_eq]
    decide
  refine ⟨others, rfl, same, ?_⟩
  rw [frame, isTag]
  refine (fullpacket_cons seq (body ++ others)).trans ?_
  rw [← full, take_of_le (by simp), drop_left, take_left]
  rfl

theorem fullpacket_other (less : body.length < u24Max) : fullpacket i = .error .error := by
  obtain short | ⟨a, b, c, tail, rfl, digits, _⟩ := cut_frame cut
  · exact fullpacket_of_length_lt (by omega)
  · refine fullpacket_of_tag fun isTag => ?_
    have isTag : [a, b, c] = [255, 255, 255] := isTag
    rw [u24Max_eq] at less
    have read := ofLittleEndian_littleEndian (show body.length < 256 ^ 3 by omega)
    rw [← digits, isTag] at read
    have most : ofLittleEndian [255, 255, 255] = 16777215 := by decide
    omega

end

/-! ## Packets -/

/-- The bytes of a packet are where `extend` expects them. -/
def Packet.Whole (self : Packet) : Prop :=
  self.borrowed ≠ [] ∧ self.owned = [] ∨ self.borrowed = [] ∧ self.owned ≠ []

theorem Packet.Whole.extend {self : Packet} (whole : self.Whole) (bytes : Bytes) :
    ∃ pkt, self.extend bytes = .ok pkt ∧ pkt.Whole ∧ pkt.asRef = self.asRef ++ bytes := by
  obtain ⟨borrowed, owned⟩ := self
  rcases whole with ⟨nonempty, empty⟩ | ⟨empty, nonempty⟩
  · obtain rfl : owned = [] := empty
    have joined : borrowed ++ bytes ≠ [] := append_ne_nil_of_left_ne_nil nonempty _
    refine ⟨⟨[], borrowed ++ bytes⟩, ?_, .inr ⟨rfl, joined⟩, ?_⟩
    · have notEmpty : borrowed.isEmpty = false := isEmpty_eq_false_iff.mpr nonempty
      simp [Packet.extend, notEmpty]
    · simp [asRef]
  · obtain rfl : borrowed = [] := empty
    have joined : owned ++ bytes ≠ [] := append_ne_nil_of_left_ne_nil nonempty _
    have notEmpty : owned.isEmpty = false := isEmpty_eq_false_iff.mpr nonempty
    refine ⟨⟨[], owned ++ bytes⟩, ?_, .inr ⟨rfl, joined⟩, ?_⟩
    · simp [Packet.extend, notEmpty]
    · simp [asRef, notEmpty]

section

variable {checks : Bool}

/-- The parser after it has read some full frames. -/
def packetFrom (checks : Bool) (full : UInt8 × Option Packet) (i : Bytes) :
    Except NomErr (Bytes × UInt8 × Packet) := do
  let (i, full) ← foldMany0 fullpacket
    (fun full frame => return (frame.1, some (← append checks full frame))) full i
  let (i, last) ← onepacket i
  return (i, last.1, ← append checks full last)

theorem packetFrom_start (i : Bytes) : packet checks i = packetFrom checks (0, none) i := rfl

variable {full : UInt8 × Option Packet}

theorem packetFrom_last (other : fullpacket i = .error .error) :
    packetFrom checks full i = (onepacket i >>= fun last =>
      append checks full last.2 >>= fun pkt => pure (last.1, last.2.1, pkt)) := by
  rw [packetFrom, foldMany0, other]
  rfl

theorem packetFrom_full {others : Bytes} {frame : UInt8 × Bytes}
    (found : fullpacket i = .ok (others, frame)) (shorter : others.length < i.length) :
    packetFrom checks full i = (append checks full frame >>= fun pkt =>
      packetFrom checks (frame.1, some pkt) others) := by
  rw [packetFrom, foldMany0, found]
  simp only [if_pos shorter]
  rcases append checks full frame with problem | pkt <;> rfl

/-- What has been read fits to a frame with a sequence number that comes next. -/
def Ready (checks : Bool) (full : UInt8 × Option Packet) (seq : UInt8) : Prop :=
  ∀ pkt, full.2 = some pkt → plusOne checks full.1 = .ok seq ∧ pkt.Whole

/-- The bytes that have been read. -/
def soFar (full : UInt8 × Option Packet) : Bytes :=
  match full.2 with
  | some pkt => pkt.asRef
  | none => []

theorem append_ready (ready : Ready checks full seq) :
    ∃ pkt, append checks full (seq, body) = .ok pkt ∧ pkt.asRef = soFar full ++ body ∧
      (body ≠ [] → pkt.Whole) := by
  rcases read : full.2 with _ | pkt
  · refine ⟨⟨body, []⟩, ?_, ?_, fun nonempty => .inl ⟨nonempty, rfl⟩⟩
    · rw [append, read]
    · rw [soFar, read]
      rfl
  · obtain ⟨follows, whole⟩ := ready pkt read
    obtain ⟨extended, extends', stillWhole, joined⟩ := whole.extend body
    refine ⟨extended, ?_, ?_, fun _ => stillWhole⟩
    · rw [append, read]
      rw [follows]
      exact (if_pos rfl).trans extends'
    · rw [soFar, read]
      exact joined

/-- The reader does not panic at a packet that starts with a sequence number. -/
def Fits (checks : Bool) (seq : UInt8) (packet : Bytes) : Prop :=
  checks = true → seq.toNat + packet.length / u24Max < 256

theorem toNat_add_one (less : seq.toNat < 255) : (seq + 1).toNat = seq.toNat + 1 := by
  have one : (1 : UInt8).toNat = 1 := rfl
  rw [UInt8.toNat_add]
  exact Nat.mod_eq_of_lt (by omega)

variable {packet : Bytes} {pkt : Packet}

theorem frames_long (long : packet.length ≥ u24Max) :
    packet.length / u24Max = (packet.drop u24Max).length / u24Max + 1 := by
  rw [length_drop]
  exact Nat.div_eq_sub_div (by rw [u24Max_eq]; decide) long

theorem fits_long (long : packet.length ≥ u24Max) (fits : Fits checks seq packet) :
    (checks = true → seq.toNat < 255) ∧ Fits checks (seq + 1) (packet.drop u24Max) := by
  have less : checks = true → seq.toNat < 255 := by
    intro on
    have most := fits on
    have least := Nat.zero_le ((packet.drop u24Max).length / u24Max)
    rw [frames_long long] at most
    omega
  refine ⟨less, fun on => ?_⟩
  have most := fits on
  rw [frames_long long] at most
  rw [toNat_add_one (less on)]
  omega

theorem packetFrom_frame (ready : Ready checks full seq)
    (isFull : body.length = u24Max) (cut : i ++ more = frame seq body ++ rest)
    (long : u24Max + 4 ≤ i.length) :
    ∃ others pkt, i = frame seq body ++ others ∧ others ++ more = rest ∧
      packetFrom checks full i = packetFrom checks (seq, some pkt) others ∧
      pkt.Whole ∧ pkt.asRef = soFar full ++ body := by
  obtain ⟨others, split, same, found⟩ := fullpacket_long cut isFull long
  obtain ⟨pkt, appended, joined, whole⟩ := append_ready ready
  refine ⟨others, pkt, split, same, ?_, whole fun empty => ?_, joined⟩
  · have shorter : others.length < i.length := by
      rw [split, length_append, length_frame]
      omega
    rw [packetFrom_full found shorter, appended]
    rfl
  · rw [empty, u24Max_eq] at isFull
    exact absurd isFull (by decide)

theorem packetFrom_frame_part (isFull : body.length = u24Max)
    (cut : i ++ more = frame seq body ++ rest) (short : ¬u24Max + 4 ≤ i.length) :
    packetFrom checks full i = .error .error := by
  have fits : body.length < 256 ^ 3 := by
    rw [isFull, u24Max_eq]
    decide
  rw [packetFrom_last (fullpacket_of_length_lt (Nat.lt_of_not_ge short)),
    onepacket_part cut fits (by omega)]
  rfl

theorem ready_frame (whole : pkt.Whole) (less : checks = true → seq.toNat < 255) :
    Ready checks (seq, some pkt) (seq + 1) := by
  intro other same
  obtain rfl := Option.some.inj same
  refine ⟨if_neg ?_, whole⟩
  rintro ⟨on, rfl⟩
  exact absurd (less on) (by decide)

theorem short_lt (short : ¬packet.length ≥ u24Max) : packet.length < 256 ^ 3 := by
  rw [u24Max_eq] at short
  omega

variable {result : Bytes × UInt8 × Packet}

section

variable (ready : Ready checks full seq) (fits : Fits checks seq packet)
  (cut : i ++ more = wire seq packet ++ rest)

include ready fits cut

/-- A whole packet is read once its bytes are there. -/
theorem packetFrom_whole (long : (wire seq packet).length ≤ i.length) :
    ∃ others last pkt, packetFrom checks full i = .ok (others, last, pkt) ∧
      i = wire seq packet ++ others ∧ others ++ more = rest ∧ pkt.asRef = soFar full ++ packet := by
  induction seq, packet using wire.induct generalizing full i with
  | case1 seq packet isLong ih =>
    have taken : (packet.take u24Max).length = u24Max := length_take_of_le isLong
    obtain ⟨less, fitsRest⟩ := fits_long isLong fits
    rw [wire_long isLong] at cut long ⊢
    rw [length_append, length_frame] at long
    rw [append_assoc] at cut
    obtain ⟨others, pkt, split, cutRest, same, whole, joined⟩ :=
      packetFrom_frame ready taken cut (by omega)
    have longRest : (wire (seq + 1) (packet.drop u24Max)).length ≤ others.length := by
      rw [split, length_append, length_frame] at long
      omega
    obtain ⟨final, last, result, found, splitRest, after, read⟩ :=
      ih (ready_frame whole less) fitsRest cutRest longRest
    refine ⟨final, last, result, same.trans found, ?_, after, ?_⟩
    · rw [split, splitRest, append_assoc]
    · have before : soFar (seq, some pkt) = pkt.asRef := rfl
      rw [read, before, joined, append_assoc, take_append_drop]
  | case2 seq packet isShort =>
    rw [wire_short isShort] at cut long ⊢
    obtain ⟨others, split, after, found⟩ := onepacket_long cut (short_lt isShort) long
    obtain ⟨pkt, appended, joined, _⟩ := append_ready ready
    refine ⟨others, seq, pkt, ?_, split, after, joined⟩
    rw [packetFrom_last (fullpacket_other cut (Nat.lt_of_not_ge isShort)), found]
    change (append checks full (seq, packet) >>= fun pkt => pure (others, seq, pkt)) = _
    rw [appended]
    rfl

/-- A packet that is not there as a whole is waited for. -/
theorem packetFrom_part (part : i.length < (wire seq packet).length) :
    packetFrom checks full i = .error .error := by
  induction seq, packet using wire.induct generalizing full i with
  | case1 seq packet isLong ih =>
    have taken : (packet.take u24Max).length = u24Max := length_take_of_le isLong
    obtain ⟨less, fitsRest⟩ := fits_long isLong fits
    rw [wire_long isLong] at cut part
    rw [length_append] at part
    rw [append_assoc] at cut
    by_cases long : u24Max + 4 ≤ i.length
    · obtain ⟨others, pkt, split, cutRest, same, whole, _⟩ := packetFrom_frame ready taken cut long
      rw [same]
      refine ih (ready_frame whole less) fitsRest cutRest ?_
      rw [split, length_append] at part
      omega
    · exact packetFrom_frame_part taken cut long
  | case2 seq packet isShort =>
    rw [wire_short isShort] at cut part
    rw [packetFrom_last (fullpacket_other cut (Nat.lt_of_not_ge isShort)),
      onepacket_part cut (short_lt isShort) part]
    rfl

end

/-- Where the next sequence number overflows, nothing is read. -/
theorem packetFrom_stuck {problem : NomErr} (stuck : plusOne checks seq = .error problem) :
    packetFrom checks (seq, some pkt) i ≠ .ok result := by
  have fails : ∀ frame, append checks (seq, some pkt) frame = .error problem := by
    intro frame
    rw [append]
    rw [stuck]
    rfl
  intro returned
  obtain ⟨⟨others, next⟩, folded, returned⟩ := bind_eq_ok.mp returned
  obtain ⟨last, -, returned⟩ := bind_eq_ok.mp returned
  obtain ⟨_, appended, -⟩ := bind_eq_ok.mp returned
  rw [foldMany0] at folded
  rcases found : fullpacket i with other | ⟨rest, frame⟩
  · rw [found] at folded
    cases other with
    | error =>
      obtain ⟨rfl, rfl⟩ := ok_pair_inj folded
      cases (fails _).symm.trans appended
    | _ => cases folded
  · rw [found] at folded
    simp only [fails] at folded
    split at folded <;> cases folded

/-- With overflow checks, a packet that goes on after the frame with number 255
is never returned. -/
theorem packetFrom_overflow (ready : Ready checks full seq)
    (overflows : ¬Fits checks seq packet) (cut : i ++ more = wire seq packet ++ rest) :
    packetFrom checks full i ≠ .ok result := by
  obtain ⟨on, most⟩ := Classical.not_imp.mp overflows
  induction seq, packet using wire.induct generalizing full i with
  | case1 seq packet isLong ih =>
    have taken : (packet.take u24Max).length = u24Max := length_take_of_le isLong
    rw [wire_long isLong, append_assoc] at cut
    by_cases long : u24Max + 4 ≤ i.length
    · obtain ⟨others, pkt, _, cutRest, same, whole, _⟩ := packetFrom_frame ready taken cut long
      rw [same]
      by_cases isLast : seq = 255
      · exact packetFrom_stuck (if_pos ⟨on, isLast⟩)
      · have less : seq.toNat < 255 := by
          have below := seq.toNat_lt
          have other : seq.toNat ≠ (255 : UInt8).toNat := fun same => isLast (UInt8.toNat_inj.mp same)
          change seq.toNat ≠ 255 at other
          omega
        have overflowsRest : ¬(seq + 1).toNat + (packet.drop u24Max).length / u24Max < 256 := by
          rw [frames_long isLong] at most
          rw [toNat_add_one less]
          omega
        exact ih (ready_frame whole fun _ => less)
          (fun fits => overflowsRest (fits on)) cutRest overflowsRest
    · rw [packetFrom_frame_part taken cut long]
      intro returned
      cases returned
  | case2 seq packet isShort =>
    have single : packet.length / u24Max = 0 := Nat.div_eq_of_lt (Nat.lt_of_not_ge isShort)
    have below := seq.toNat_lt
    omega

theorem ready_start : Ready checks (0, none) seq := fun _ absent => nomatch absent

end

/-! ## Readers -/

/-- A reader inside `next` has, or will get, some data. -/
structure Collecting (reader : PacketReader) (data : Bytes) : Prop where
  start : reader.start ≤ reader.bytes.length
  remaining : reader.remaining = reader.bytes.length - reader.start
  data : reader.bytes.drop reader.start ++ reader.r.data = data

/-- A reader between calls of `next` has, or will get, some data. -/
structure Holds (reader : PacketReader) (data : Bytes) : Prop where
  remaining : reader.remaining ≤ reader.bytes.length
  data : reader.bytes.drop (reader.bytes.length - reader.remaining) ++ reader.r.data = data

section

variable {checks : Bool} {self : PacketReader} {data : Bytes}

theorem Holds.collecting (holds : Holds self data) :
    Collecting { self with start := self.bytes.length - self.remaining } data where
  start := Nat.sub_le ..
  remaining := (Nat.sub_sub_self holds.remaining).symm
  data := holds.data

section

variable (collecting : Collecting self data)

include collecting

theorem Collecting.remaining_ne_zero : self.remaining ≠ 0 ↔ self.bytes.drop self.start ≠ [] := by
  rw [collecting.remaining, ← length_drop]
  exact length_eq_zero_iff.not

/-- With bytes that are left, `next` tries the parser on them. -/
theorem parse_eq (left : self.bytes.drop self.start ≠ []) :
    self.parse checks = match packet checks (self.bytes.drop self.start) with
      | .ok (rest, p) => .ok (some (p, { self with remaining := rest.length }))
      | .error .incomplete => .ok none
      | .error .error => .ok none
      | .error .failure => .error (.io .invalidData)
      | .error (.panicked message) => .error (.panicked message) := by
  rw [parse, if_pos (collecting.remaining_ne_zero.mpr left)]
  exact if_pos collecting.start

theorem parse_nothing (none : self.bytes.drop self.start = []) :
    self.parse checks = .ok Option.none :=
  if_neg fun left => collecting.remaining_ne_zero.mp left none

end

theorem wire_ne_nil {packet : Bytes} : wire seq packet ≠ [] := by
  have nonempty : ∀ body, frame seq body ≠ [] := fun body empty => by
    have length := length_frame seq body
    rw [empty, length_nil] at length
    omega
  by_cases long : packet.length ≥ u24Max
  · rw [wire_long long]
    exact append_ne_nil_of_left_ne_nil (nonempty _) _
  · rw [wire_short long]
    exact nonempty _

variable {sent : Bytes}

section

variable (collecting : Collecting self (wire seq sent ++ rest))

include collecting

theorem parse_whole (fits : Fits checks seq sent)
    (long : (wire seq sent).length ≤ (self.bytes.drop self.start).length) :
    ∃ last pkt after, self.parse checks = .ok (some ((last, pkt), after)) ∧
      pkt.asRef = sent ∧ Holds after rest := by
  have left : self.bytes.drop self.start ≠ [] := by
    intro none
    rw [none] at long
    exact wire_ne_nil (length_eq_zero_iff.mp (Nat.le_zero.mp long))
  obtain ⟨others, last, pkt, found, split, after, read⟩ :=
    packetFrom_whole (ready_start) fits collecting.data long
  have ends : others <:+ self.bytes :=
    (suffix_append _ _).trans (split ▸ drop_suffix self.start self.bytes)
  refine ⟨last, pkt, { self with remaining := others.length }, ?_, read, ends.length_le, ?_⟩
  · rw [parse_eq collecting left, packetFrom_start, found]
  · rw [← suffix_iff_eq_drop.mp ends]
    exact after

theorem parse_part (fits : Fits checks seq sent)
    (part : (self.bytes.drop self.start).length < (wire seq sent).length) :
    self.parse checks = .ok none := by
  by_cases left : self.bytes.drop self.start = []
  · exact parse_nothing collecting left
  · rw [parse_eq collecting left, packetFrom_start,
      packetFrom_part (ready_start) fits collecting.data part]

theorem parse_overflow (overflows : ¬Fits checks seq sent)
    {result : (UInt8 × Packet) × PacketReader} : self.parse checks ≠ .ok (some result) := by
  by_cases left : self.bytes.drop self.start = []
  · rw [parse_nothing collecting left]
    exact nofun
  · rw [parse_eq collecting left, packetFrom_start]
    rcases found : packetFrom checks (0, none) (self.bytes.drop self.start) with problem | p
    · rcases problem with _ | _ | _ | _ <;> exact nofun
    · exact absurd found (packetFrom_overflow (ready_start) overflows collecting.data)

end

theorem fill_spec (collecting : Collecting self data) :
    Collecting self.fill.2 data ∧ (self.fill.1 = 0 ↔ self.r.data = []) ∧
      (self.r.data = [] → self.fill.2.bytes = data) := by
  have kept : self.fill.2.bytes ++ self.fill.2.r.data = data := by
    rw [← collecting.data, fill, append_assoc]
    exact congrArg _ Source.read_append
  have roomy : 0 < max 4096 ((self.bytes.drop self.start).length * 2) -
      (self.bytes.drop self.start).length := by omega
  refine ⟨⟨Nat.zero_le _, rfl, kept⟩, ?_, fun ended => ?_⟩
  · exact length_eq_zero_iff.trans (Source.read_eq_nil_iff roomy)
  · have nothing : self.fill.2.r.data = [] := by
      exact (congrArg _ ended).trans drop_nil
    rw [nothing, append_nil] at kept
    exact kept

theorem length_fill_lt (more : self.fill.1 ≠ 0) : self.fill.2.r.data.length < self.r.data.length :=
  Source.length_read_lt fun empty => more (congrArg length empty)

/-- Reads are repeated until the packet is there. -/
theorem collect_packet (collecting : Collecting self (wire seq sent ++ rest))
    (fits : Fits checks seq sent) :
    ∃ last pkt after, self.collect checks = .ok (some (last, pkt), after) ∧
      pkt.asRef = sent ∧ Holds after rest := by
  induction size : self.r.data.length using Nat.strong_induction_on generalizing self with
  | _ size ih =>
    by_cases long : (wire seq sent).length ≤ (self.bytes.drop self.start).length
    · obtain ⟨last, pkt, after, parsed, read, holds⟩ := parse_whole collecting fits long
      refine ⟨last, pkt, after, ?_, read, holds⟩
      rw [collect, parsed]
    · have parsed := parse_part collecting fits (Nat.lt_of_not_ge long)
      obtain ⟨filled, ended, _⟩ := fill_spec collecting
      have more : self.fill.1 ≠ 0 := by
        intro none
        have lengths := congrArg length collecting.data
        rw [ended.mp none, append_nil, length_append] at lengths
        omega
      obtain ⟨last, pkt, after, found, read, holds⟩ := ih _ (size ▸ length_fill_lt more) filled rfl
      refine ⟨last, pkt, after, ?_, read, holds⟩
      rw [collect, parsed]
      exact (dif_neg more).trans found

/-- A packet that does not fit is never returned, and neither is the end of the
stream. -/
theorem collect_overflow (collecting : Collecting self (wire seq sent ++ rest))
    (overflows : ¬Fits checks seq sent) (result : Option (UInt8 × Packet) × PacketReader) :
    self.collect checks ≠ .ok result := by
  induction size : self.r.data.length using Nat.strong_induction_on generalizing self with
  | _ size ih =>
    rw [collect]
    rcases parsed : self.parse checks with problem | _ | found
    · exact nofun
    · obtain ⟨filled, ended, remains⟩ := fill_spec collecting
      by_cases more : self.fill.1 = 0
      · have nonempty : self.fill.2.bytes.isEmpty = false := by
          rw [remains (ended.mp more), isEmpty_eq_false_iff]
          exact append_ne_nil_of_left_ne_nil (wire_ne_nil) _
        simp only [dif_pos more, nonempty]
        exact nofun
      · simp only [dif_neg more]
        exact ih _ (size ▸ length_fill_lt more) filled rfl
    · exact absurd parsed (parse_overflow collecting overflows)

theorem collect_end (collecting : Collecting self []) :
    ∃ after, self.collect checks = .ok (none, after) := by
  obtain ⟨nothing, ended⟩ := append_eq_nil_iff.mp collecting.data
  obtain ⟨_, none, remains⟩ := fill_spec collecting
  refine ⟨self.fill.2, ?_⟩
  rw [collect, parse_nothing collecting nothing]
  simp [dif_pos (none.mpr ended), remains ended]

theorem next_eq (holds : Holds self data) : self.next checks =
    { self with start := self.bytes.length - self.remaining }.collect checks :=
  if_pos holds.remaining

theorem nextTimes_succ_iff {found : Option (UInt8 × Packet)} {after : PacketReader}
    (first : self.next checks = .ok (found, after)) (count : Nat) (output : Option Bytes)
    (outputs : List (Option Bytes)) :
    (∃ final, self.nextTimes checks (count + 1) = .ok (output :: outputs, final)) ↔
      found.map (fun p => p.2.asRef) = output ∧
        ∃ final, after.nextTimes checks count = .ok (outputs, final) := by
  rw [nextTimes, first]
  change (∃ final, (after.nextTimes checks count >>= fun result =>
    pure (found.map (fun p => p.2.asRef) :: result.1, result.2)) = .ok (output :: outputs, final)) ↔ _
  rcases after.nextTimes checks count with problem | ⟨others, final⟩
  · exact iff_of_false (fun ⟨_, returned⟩ => nomatch returned) fun ⟨_, _, returned⟩ => nomatch returned
  · constructor
    · rintro ⟨_, returned⟩
      obtain ⟨outputs, rfl⟩ := ok_pair_inj returned
      obtain ⟨same, rfl⟩ := cons.inj outputs
      exact ⟨same, final, rfl⟩
    · rintro ⟨rfl, _, returned⟩
      obtain ⟨rfl, rfl⟩ := ok_pair_inj returned
      exact ⟨final, rfl⟩

/-- The calls of `next` return some packets and then the end of the stream exactly
when these are the packets on the wire and all of them fit. -/
theorem nextTimes_iff {entries : List (UInt8 × Bytes)} (holds : Holds self (wires entries))
    (packets : List Bytes) :
    (∃ final, self.nextTimes checks (packets.length + 1) =
        .ok (packets.map some ++ [none], final)) ↔
      entries.map Prod.snd = packets ∧ ∀ entry ∈ entries, Fits checks entry.1 entry.2 := by
  induction entries generalizing self packets with
  | nil =>
    obtain ⟨after, found⟩ : ∃ after, self.next checks = .ok (none, after) := by
      rw [next_eq holds]
      exact collect_end holds.collecting
    cases packets with
    | nil =>
      refine (nextTimes_succ_iff found 0 none []).trans ?_
      exact iff_of_true ⟨rfl, after, rfl⟩ ⟨rfl, nofun⟩
    | cons packet packets =>
      refine (nextTimes_succ_iff found _ (some packet) _).trans ?_
      exact iff_of_false (fun both => nomatch both.1) fun both => nomatch both.1
  | cons entry entries ih =>
    by_cases fits : Fits checks entry.1 entry.2
    · obtain ⟨last, pkt, after, found, read, holdsRest⟩ := collect_packet holds.collecting fits
      rw [← next_eq holds] at found
      cases packets with
      | nil =>
        refine (nextTimes_succ_iff found 0 none []).trans ?_
        exact iff_of_false (fun both => nomatch both.1) fun both => nomatch both.1
      | cons packet packets =>
        refine (nextTimes_succ_iff found (packets.length + 1) (some packet)
          (packets.map some ++ [none])).trans ?_
        rw [ih holdsRest, forall_mem_cons, map_cons, cons.injEq]
        simp [read, fits, and_assoc]
    · refine iff_of_false ?_ fun both => fits (both.2 entry mem_cons_self)
      rintro ⟨final, returned⟩
      rcases found : self.next checks with problem | ⟨result, after⟩
      · rw [nextTimes, found] at returned
        cases returned
      · rw [next_eq holds] at found
        exact collect_overflow holds.collecting fits _ found

end

end ReadySet.MysqlSrv
