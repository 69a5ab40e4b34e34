import ReadySet.Library.Machine
import ReadySet.MysqlSrv.Packet

/-!
Owns what a `PacketWriter` sends. A packet is on the wire as its frames
(`wire`), and the writer follows an abstract one that keeps whole packets with
their sequence numbers (`Log`): `applyAll_represents` says so for every sequence
of calls, whatever pieces the transport takes.

The abstract writer shows what becomes of queued packets. A short `write_packet`
sends them but leaves them in the queue, so they are sent again later
(`length_lt_of_not_quiet`); without such calls every packet is sent once and in
order (`sent_of_quiet`).
-/

namespace ReadySet.MysqlSrv

open Library List

/-! ## Packets on the wire -/

/-- One frame: its length, its sequence number and its bytes. -/
def frame (seq : UInt8) (body : Bytes) : Bytes := littleEndian 3 body.length ++ seq :: body

def wire (seq : UInt8) (packet : Bytes) : Bytes :=
  if packet.length ≥ u24Max then
    frame seq (packet.take u24Max) ++ wire (seq + 1) (packet.drop u24Max)
  else frame seq packet
termination_by packet.length
decreasing_by
  have positive := u24Max_eq
  rw [List.length_drop]
  omega

variable {packet : Bytes}

theorem wire_long (long : packet.length ≥ u24Max) (seq : UInt8) :
    wire seq packet = frame seq (packet.take u24Max) ++ wire (seq + 1) (packet.drop u24Max) := by
  rw [wire, if_pos long]

theorem wire_short (short : ¬packet.length ≥ u24Max) (seq : UInt8) :
    wire seq packet = frame seq packet := by
  rw [wire, if_neg short]

variable (seq : UInt8) {ops : List Op} {slices : List Bytes}

theorem length_frame (body : Bytes) : (frame seq body).length = body.length + 4 := by
  rw [frame, length_append, length_littleEndian, length_cons]
  omega

/-- The sequence number after the frames of a packet. -/
def seqAfter (seq : UInt8) (packet : Bytes) : UInt8 :=
  seq + UInt8.ofNat (packet.length / u24Max + 1)

theorem seqAfter_long (long : packet.length ≥ u24Max) (seq : UInt8) :
    seqAfter (seq + 1) (packet.drop u24Max) = seqAfter seq packet := by
  have frames : packet.length / u24Max = (packet.length - u24Max) / u24Max + 1 :=
    Nat.div_eq_sub_div (by rw [u24Max_eq]; decide) long
  rw [seqAfter, seqAfter, length_drop, frames, UInt8.ofNat_add, UInt8.ofNat_add, UInt8.ofNat_add]
  change seq + 1 + (_ + 1) = seq + (_ + 1 + 1)
  rw [UInt8.add_assoc, UInt8.add_comm 1]

theorem seqAfter_short (short : ¬packet.length ≥ u24Max) (seq : UInt8) :
    seqAfter seq packet = seq + 1 := by
  rw [seqAfter, Nat.div_eq_of_lt (Nat.lt_of_not_ge short)]
  rfl

theorem header_append {body : Bytes} (fits : body.length ≤ u24Max) (seq : UInt8) :
    header body.length seq ++ body = frame seq body := by
  rw [u24Max_eq] at fits
  have small : body.length % 2 ^ 32 = body.length := Nat.mod_eq_of_lt (by omega)
  rw [header, small, frame]
  simp [littleEndian]

theorem take_littleEndian (length : Nat) : (littleEndian 8 length).take 3 = littleEndian 3 length := by
  simp [littleEndian]

/-! ## Vectored writes -/

theorem skipSlices_ok {didWrite : Nat}
    (more : didWrite < slices.flatten.length) : ∃ rest, skipSlices didWrite slices = .ok rest := by
  induction slices generalizing didWrite with
  | nil => exact absurd more (Nat.not_lt_zero _)
  | cons slice slices ih =>
    rw [skipSlices]
    by_cases whole : didWrite ≥ slice.length
    · rw [if_pos whole]
      apply ih
      rw [flatten_cons, length_append] at more
      omega
    · rw [if_neg whole]
      exact ⟨_, rfl⟩

/-- Partial writes are repeated until all slices are written. -/
theorem writeRemaining_ok (w : Sink) (n : Nat) (slices : List Bytes)
    (total : n = slices.flatten.length) :
    ∃ after, writeRemaining w n slices total = .ok after ∧
      after.written = w.written ++ slices.flatten := by
  induction n using Nat.strong_induction_on generalizing w slices with
  | _ n ih =>
    rw [writeRemaining]
    by_cases done : (w.writeVectored slices).1 = n
    · refine ⟨_, dif_pos done, ?_⟩
      rw [Sink.written_writeVectored, done, total, take_length]
    · have most : (w.writeVectored slices).1 ≤ slices.flatten.length := Sink.writeVectored_le
      have least := Sink.writeVectored_pos (total ▸ done)
      obtain ⟨rest, skipped⟩ := skipSlices_ok
        (show (w.writeVectored slices).1 < slices.flatten.length by omega)
      have dropped := skipSlices_flatten skipped
      obtain ⟨after, wrote, written⟩ := ih
        (n - (w.writeVectored slices).1) (by omega) (w.writeVectored slices).2 rest
        (by rw [dropped, length_drop, ← total])
      refine ⟨after, ?_, ?_⟩
      · rw [dif_neg done]
        split
        · next problem failed => cases failed.symm.trans skipped
        · next other found =>
            obtain rfl := Except.ok.inj (found.symm.trans skipped)
            exact wrote
      · rw [written, Sink.written_writeVectored, dropped, append_assoc, take_append_drop]

theorem writeAllVectored_ok {w : Sink} :
    ∃ after, writeAllVectored w slices = .ok after ∧ after.written = w.written ++ slices.flatten :=
  writeRemaining_ok w _ slices _

/-! ## The calls of a writer -/

namespace PacketWriter

def queued (self : PacketWriter) : Bytes := (queuedPacketSlices self.queue).flatten

theorem queued_push {self : PacketWriter} (fits : packet.length ≤ u24Max) :
    (self.push packet).queued = self.queued ++ frame self.seq packet := by
  simp only [queued, push, queuedPacketSlices, flatMap_append, flatten_append,
    flatMap_cons, flatMap_nil, flatten_cons, flatten_nil, append_nil,
    append_cancel_left_eq]
  exact header_append fits self.seq

variable (self : PacketWriter)

theorem enqueuePacket_spec (packet : Bytes) :
    (self.enqueuePacket packet).queued = self.queued ++ wire self.seq packet ∧
      (self.enqueuePacket packet).seq = seqAfter self.seq packet ∧
      (self.enqueuePacket packet).w = self.w := by
  induction self, packet using enqueuePacket.induct with
  | case1 self packet long ih =>
    have taken : (packet.take u24Max).length ≤ u24Max := length_take_le ..
    rw [enqueuePacket, if_pos long, wire_long long, ← seqAfter_long long, ← append_assoc,
      ← queued_push taken]
    exact ih
  | case2 self packet short =>
    rw [enqueuePacket, if_neg short, wire_short short, seqAfter_short short]
    exact ⟨queued_push (Nat.le_of_not_ge short), rfl, rfl⟩

theorem largeHeaders_spec :
    (largeSlices (largeHeaders seq packet.length).1 packet).flatten = wire seq packet ∧
      (largeHeaders seq packet.length).2 = seqAfter seq packet := by
  induction seq, packet using wire.induct with
  | case1 seq packet long ih =>
    have taken : (packet.take u24Max).length = u24Max := length_take_of_le long
    rw [length_drop] at ih
    rw [largeHeaders, if_pos long, wire_long long, ← seqAfter_long long, largeSlices, if_pos long,
      flatten_cons, flatten_cons, ih.1, ← header_append taken.le, taken]
    exact ⟨rfl, ih.2⟩
  | case2 seq packet short =>
    rw [largeHeaders, if_neg short, wire_short short, seqAfter_short short, largeSlices,
      if_neg short, largeSlices, ← header_append (Nat.le_of_not_ge short)]
    exact ⟨by simp, rfl⟩

theorem writeQueuedPackets_spec :
    ∃ after, self.writeQueuedPackets = .ok after ∧ after.queued = [] ∧ after.seq = self.seq ∧
      after.w.written = self.w.written ++ self.queued := by
  rw [writeQueuedPackets]
  by_cases empty : (queuedPacketSlices self.queue).isEmpty = true
  · have nothing : self.queued = [] := by
      rw [queued, isEmpty_iff.mp empty, flatten_nil]
    refine ⟨self, if_pos empty, nothing, rfl, ?_⟩
    rw [nothing, append_nil]
  · obtain ⟨w, wrote, written⟩ := writeAllVectored_ok
    refine ⟨{ self with w := w }.returnQueuedToPool, ?_, rfl, rfl, written⟩
    rw [if_neg empty, wrote]
    rfl

/-- A short packet is sent after the queue, which is left as it is; a long one
empties the queue. -/
theorem writePacket_spec (packet : Bytes) :
    ∃ after, self.writePacket packet = .ok after ∧
      after.queued = (if packet.length ≥ u24Max then [] else self.queued) ∧
      after.seq = seqAfter self.seq packet ∧
      after.w.written = self.w.written ++ (self.queued ++ wire self.seq packet) := by
  rw [writePacket]
  by_cases long : packet.length ≥ u24Max
  · obtain ⟨slices, seq⟩ := largeHeaders_spec self.seq
    obtain ⟨w, wrote, written⟩ := writeAllVectored_ok
    refine ⟨{ self with
        seq := (largeHeaders self.seq packet.length).2, w := w }.returnQueuedToPool, ?_, ?_, seq, ?_⟩
    · rw [if_pos long, writeLargePacket]
      dsimp only
      rw [wrote]
      rfl
    · rw [if_pos long]
      rfl
    · rw [flatten_append, slices] at written
      exact written
  · obtain ⟨w, wrote, written⟩ := writeAllVectored_ok
    refine ⟨{ self with w := w, seq := self.seq + 1 }, ?_, ?_, ?_, ?_⟩
    · rw [if_neg long]
      dsimp only
      rw [wrote]
      rfl
    · rw [if_neg long]
      rfl
    · exact (seqAfter_short long self.seq).symm
    · rw [take_littleEndian] at written
      rw [wire_short long, frame]
      simpa [queued] using written

end PacketWriter

/-! ## The abstract writer -/

/-- The bytes of packets, each from its first sequence number on. -/
def wires (packets : List (UInt8 × Bytes)) : Bytes := packets.flatMap fun entry => wire entry.1 entry.2

@[simp] theorem wires_append (left right : List (UInt8 × Bytes)) :
    wires (left ++ right) = wires left ++ wires right :=
  flatMap_append

@[simp] theorem wires_singleton (packet : Bytes) : wires [(seq, packet)] = wire seq packet :=
  flatMap_singleton ..

/-- Whole packets: those in the queue, and all that were sent. -/
structure Log where
  seq : UInt8
  queued : List (UInt8 × Bytes)
  sent : List (UInt8 × Bytes)

namespace Log

/-- How many packets were sent or are queued. -/
def count (log : Log) : Nat := log.sent.length + log.queued.length

def step (log : Log) : Op → Log
  | .enqueuePacket packet =>
    { log with
      seq := seqAfter log.seq packet
      queued := log.queued ++ [(log.seq, packet)] }
  | .writePacket packet =>
    { seq := seqAfter log.seq packet
      queued := if packet.length ≥ u24Max then [] else log.queued
      sent := log.sent ++ (log.queued ++ [(log.seq, packet)]) }
  | .writeQueuedPackets => { log with queued := [], sent := log.sent ++ log.queued }
  | .flush => { log with queued := [], sent := log.sent ++ log.queued }

/-- Nothing is queued or sent. -/
def start (seq : UInt8) : Log where
  seq := seq
  queued := []
  sent := []

def after (seq : UInt8) (ops : List Op) : Log := ops.foldl step (start seq)

theorem after_concat (ops : List Op) (op : Op) :
    after seq (ops ++ [op]) = (after seq ops).step op := by
  rw [after, foldl_concat]
  rfl

end Log

open Log (after after_concat step)

/-- A writer has the packets of the abstract writer, as bytes. -/
structure Represents (writer : PacketWriter) (log : Log) : Prop where
  seq : writer.seq = log.seq
  queued : writer.queued = wires log.queued
  written : writer.w.written = wires log.sent

/-- One call of the writer, on the writer and on its log. -/
theorem Represents.apply {writer : PacketWriter} {log : Log} (rep : Represents writer log)
    (op : Op) : ∃ after, writer.apply op = .ok after ∧ Represents after (log.step op) := by
  have sendsQueue : ∃ after, writer.writeQueuedPackets = .ok after ∧
      Represents after (log.step .flush) := by
    obtain ⟨after, wrote, queued, seq, written⟩ := writer.writeQueuedPackets_spec
    refine ⟨after, wrote, seq.trans rep.seq, queued, ?_⟩
    rw [written, rep.written, rep.queued]
    exact (wires_append ..).symm
  cases op with
  | enqueuePacket packet =>
    obtain ⟨queued, seq, same⟩ := writer.enqueuePacket_spec packet
    refine ⟨_, rfl, ?_, ?_, ?_⟩
    · rw [seq, rep.seq]
      rfl
    · rw [queued, rep.queued, rep.seq, step, wires_append, wires_singleton]
    · rw [same]
      exact rep.written
  | writePacket packet =>
    obtain ⟨after, wrote, queued, seq, written⟩ := writer.writePacket_spec packet
    refine ⟨after, wrote, ?_, ?_, ?_⟩
    · rw [seq, rep.seq]
      rfl
    · rw [queued, step, rep.queued]
      by_cases long : packet.length ≥ u24Max
      · rw [if_pos long, if_pos long]
        rfl
      · rw [if_neg long, if_neg long]
    · rw [written, rep.written, rep.queued, rep.seq, step,
        wires_append, wires_append, wires_singleton]
  | writeQueuedPackets | flush => exact sendsQueue

theorem applyAll_represents (w : Sink) (seq : UInt8) (empty : w.written = []) (ops : List Op) :
    ∃ writer, ((PacketWriter.new w).setSeq seq).applyAll ops = .ok writer ∧
      Represents writer (after seq ops) := by
  induction ops using reverseRecOn with
  | nil => exact ⟨_, rfl, rfl, rfl, empty⟩
  | append_singleton ops op ih =>
    obtain ⟨writer, applied, rep⟩ := ih
    obtain ⟨after, last, follows⟩ := rep.apply op
    refine ⟨after, ?_, ?_⟩
    · rw [PacketWriter.applyAll] at applied ⊢
      rw [foldlM_append, applied]
      change foldlM PacketWriter.apply writer [op] = _
      rw [foldlM_cons, last]
      rfl
    · rw [after_concat]
      exact follows

/-! ## Packets sent twice -/

/-- The packet that a call hands over. -/
def Op.packet? : Op → Option Bytes
  | .enqueuePacket packet => some packet
  | .writePacket packet => some packet
  | .writeQueuedPackets => none
  | .flush => none

/-- The packets handed to a writer. -/
def packets (ops : List Op) : List Bytes := ops.filterMap Op.packet?

/-- Packets are left in the queue. -/
def pending (ops : List Op) : Bool :=
  ops.foldl (fun pending op => match op with
    | .enqueuePacket _ => true
    | .writePacket packet => if packet.length ≥ u24Max then false else pending
    | .writeQueuedPackets => false
    | .flush => false) false

/-- A call that does not write a short packet past packets in the queue. -/
def Quiet (earlier : List Op) : Op → Prop
  | .writePacket packet => packet.length < u24Max → pending earlier = false
  | _ => True

section

variable (ops : List Op)

theorem pending_iff : pending ops = false ↔ (after seq ops).queued = [] := by
  induction ops using reverseRecOn with
  | nil => exact iff_of_true rfl rfl
  | append_singleton ops op ih =>
    rw [pending, foldl_concat, after_concat]
    cases op with
    | enqueuePacket packet =>
      exact iff_of_false nofun (append_ne_nil_of_right_ne_nil _ (cons_ne_nil _ _))
    | writePacket packet =>
      rw [step]
      by_cases long : packet.length ≥ u24Max
      · simp [if_pos long]
      · simp only [if_neg long]
        exact ih
    | writeQueuedPackets | flush => exact iff_of_true rfl rfl

theorem packets_concat (op : Op) : packets (ops ++ [op]) = packets ops ++ op.packet?.toList := by
  rw [packets, filterMap_append]
  cases op with
  | enqueuePacket packet => rfl
  | writePacket packet => rfl
  | writeQueuedPackets => rfl
  | flush => rfl

theorem seq_after : (after seq ops).seq = (packets ops).foldl seqAfter seq := by
  induction ops using reverseRecOn with
  | nil => rfl
  | append_singleton ops op ih =>
    rw [after_concat, packets_concat]
    cases op with
    | enqueuePacket packet | writePacket packet =>
      exact (congrArg (seqAfter · packet) ih).trans (foldl_concat ..).symm
    | writeQueuedPackets | flush =>
      rw [Op.packet?, Option.toList, append_nil]
      exact ih

/-- A call adds its packet to those sent or queued, and more when it is not
quiet. -/
theorem count_step (op : Op) :
    (after seq ops).count + op.packet?.toList.length ≤ ((after seq ops).step op).count ∧
    (¬Quiet ops op → (after seq ops).count + op.packet?.toList.length <
      ((after seq ops).step op).count) := by
  simp only [Log.count]
  cases op with
  | enqueuePacket packet =>
    refine ⟨?_, fun notQuiet => absurd trivial notQuiet⟩
    simp only [step, Op.packet?, Option.toList, length_append, length_singleton]
    omega
  | writePacket packet =>
    simp only [step, Op.packet?, Option.toList, length_append, length_singleton]
    by_cases long : packet.length ≥ u24Max
    · refine ⟨?_, fun notQuiet => absurd (fun short => absurd short (Nat.not_lt.mpr long)) notQuiet⟩
      omega
    · rw [if_neg long]
      refine ⟨by omega, fun notQuiet => ?_⟩
      have left : (after seq ops).queued ≠ [] := fun empty =>
        notQuiet fun _ => (pending_iff seq ops).mpr empty
      have pos := length_pos_iff.mpr left
      omega
  | writeQueuedPackets | flush =>
    refine ⟨?_, fun notQuiet => absurd trivial notQuiet⟩
    simp only [step, Op.packet?, Option.toList, length_append]
    omega

theorem length_packets_le : (packets ops).length ≤ (after seq ops).count := by
  induction ops using reverseRecOn with
  | nil => exact le_rfl
  | append_singleton ops op ih =>
    have adds := (count_step seq ops op).1
    rw [after_concat, packets_concat, length_append]
    omega

end

/-- Packets with their first sequence numbers, from a number on. -/
def numbered : UInt8 → List Bytes → List (UInt8 × Bytes)
  | _, [] => []
  | seq, packet :: packets => (seq, packet) :: numbered (seqAfter seq packet) packets

theorem numbered_concat (packets : List Bytes) (packet : Bytes) :
    numbered seq (packets ++ [packet]) =
      numbered seq packets ++ [(packets.foldl seqAfter seq, packet)] := by
  induction packets generalizing seq with
  | nil => rfl
  | cons head tail ih =>
    rw [cons_append, numbered, ih]
    rfl

/-- Without short packets written past the queue, every packet is sent or queued
once and in order. -/
theorem sent_of_quiet (quiet : EveryStep Quiet ops) (seq : UInt8) :
    (after seq ops).sent ++ (after seq ops).queued = numbered seq (packets ops) := by
  induction ops using reverseRecOn with
  | nil => rfl
  | append_singleton ops op ih =>
    obtain ⟨before, last⟩ := everyStep_concat.mp quiet
    have sent := ih before
    rw [after_concat, packets_concat]
    cases op with
    | enqueuePacket packet =>
      rw [step, Op.packet?, Option.toList, numbered_concat, ← sent, ← seq_after, append_assoc]
    | writePacket packet =>
      rw [step, Op.packet?, Option.toList, numbered_concat, ← sent, ← seq_after]
      by_cases long : packet.length ≥ u24Max
      · simp [if_pos long]
      · have empty := (pending_iff seq ops).mp (last (Nat.lt_of_not_ge long))
        simp [empty]
    | writeQueuedPackets | flush =>
      rw [step, Op.packet?, Option.toList, append_nil, append_nil, sent]

theorem length_lt_of_not_quiet (notQuiet : ¬EveryStep Quiet ops) (seq : UInt8) :
    (packets ops).length < (after seq ops).count := by
  induction ops using reverseRecOn with
  | nil => exact absurd everyStep_nil notQuiet
  | append_singleton ops op ih =>
    have adds := count_step seq ops op
    have before := length_packets_le seq ops
    rw [after_concat, packets_concat, length_append]
    by_cases quiet : EveryStep Quiet ops
    · have more := adds.2 fun last => notQuiet (everyStep_concat.mpr ⟨quiet, last⟩)
      omega
    · have more := ih quiet
      omega

end ReadySet.MysqlSrv
