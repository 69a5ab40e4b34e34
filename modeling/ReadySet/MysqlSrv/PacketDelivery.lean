import ReadySet.MysqlSrv.PacketReading

/-!
Owns the two ends together: what a `PacketReader` returns of the packets that
were handed to a `PacketWriter`. `delivered_iff` says for every sequence of
calls, and for all pieces in which the transport takes and gives the bytes, when
these are exactly the packets, once each and in order. It needs that no short
packet is written past packets in the queue, and, in builds with overflow checks,
that no packet goes on after the sequence number 255.
-/

namespace ReadySet.MysqlSrv

open Library

/-- The number of frames of a packet. -/
def frames (packet : Bytes) : Nat := packet.length / u24Max + 1

section

variable (seq : UInt8) (packets : List Bytes)

theorem toNat_foldl_seqAfter :
    (packets.foldl seqAfter seq).toNat = (seq.toNat + (packets.map frames).sum) % 256 := by
  induction packets generalizing seq with
  | nil =>
    have below := seq.toNat_lt
    simp only [List.foldl_nil, List.map_nil, List.sum_nil]
    omega
  | cons packet packets ih =>
    rw [List.foldl_cons, ih, seqAfter, UInt8.toNat_add, UInt8.toNat_ofNat', List.map_cons,
      List.sum_cons, frames]
    omega

theorem map_numbered : (numbered seq packets).map Prod.snd = packets := by
  induction packets generalizing seq with
  | nil => rfl
  | cons packet packets ih =>
    rw [numbered, List.map_cons, ih]

/-- Numbered packets have a property when every packet has it with the number it
gets after the earlier ones. -/
theorem forall_numbered {property : UInt8 × Bytes → Prop} :
    (∀ entry ∈ numbered seq packets, property entry) ↔
      EveryStep (fun earlier packet => property (earlier.foldl seqAfter seq, packet)) packets := by
  induction packets using List.reverseRecOn with
  | nil => exact iff_of_true nofun everyStep_nil
  | append_singleton packets packet ih =>
    rw [numbered_concat, everyStep_concat, ← ih, List.forall_mem_append, List.forall_mem_singleton]

end

/-- In builds with overflow checks, no packet goes on after the frame with the
sequence number 255. -/
def NoWrap (seq : UInt8) : List Bytes → Prop :=
  EveryStep fun earlier packet =>
    (seq.toNat + (earlier.map frames).sum) % 256 + packet.length / u24Max < 256

theorem fits_numbered (checks : Bool) (seq : UInt8) (packets : List Bytes) :
    (∀ entry ∈ numbered seq packets, Fits checks entry.1 entry.2) ↔
      (checks = true → NoWrap seq packets) := by
  rw [forall_numbered]
  constructor
  · intro every on earlier packet later split
    have fits := every earlier packet later split on
    rwa [toNat_foldl_seqAfter] at fits
  · intro noWrap earlier packet later split on
    rw [toNat_foldl_seqAfter]
    exact noWrap on earlier packet later split

/-- The reader returns the packets exactly once and in order, and then the end of
the stream, for every way in which the transport cuts the bytes, exactly when no
short packet is written past the queue and, with overflow checks, no packet goes
on after the sequence number 255. -/
theorem delivered_iff (checks : Bool) (writeSizes readSizes : Nat → ℕ+) (seq : UInt8)
    (ops : List Op) :
    (∃ writer, ((PacketWriter.new ⟨writeSizes, 0, []⟩).setSeq seq).applyAll (ops ++ [.flush]) =
        .ok writer ∧
      ∃ reader, (PacketReader.new ⟨readSizes, 0, writer.w.written⟩).nextTimes checks
          ((packets ops).length + 1) = .ok ((packets ops).map some ++ [none], reader)) ↔
      EveryStep Quiet ops ∧ (checks = true → NoWrap seq (packets ops)) := by
  obtain ⟨writer, applied, represents⟩ :=
    applyAll_represents ⟨writeSizes, 0, []⟩ seq rfl (ops ++ [.flush])
  have sent : (Log.after seq (ops ++ [.flush])).sent =
      (Log.after seq ops).sent ++ (Log.after seq ops).queued := by
    rw [Log.after_concat]
    rfl
  have written := represents.written
  rw [sent] at written
  have holds : Holds (PacketReader.new ⟨readSizes, 0, writer.w.written⟩) _ := ⟨le_rfl, written⟩
  have received := @nextTimes_iff checks _ _ holds (packets ops)
  refine Iff.trans (Iff.trans ?_ received) ?_
  · refine ⟨?_, fun returned => ⟨writer, applied, returned⟩⟩
    rintro ⟨other, appliedOther, returned⟩
    obtain rfl := Except.ok.inj (applied.symm.trans appliedOther)
    exact returned
  by_cases quiet : EveryStep Quiet ops
  · rw [sent_of_quiet quiet, map_numbered, fits_numbered]
    exact ⟨fun both => ⟨quiet, both.2⟩, fun both => ⟨rfl, both.2⟩⟩
  · refine iff_of_false (fun both => ?_) fun both => quiet both.1
    have lengths := congrArg List.length both.1
    have more := length_lt_of_not_quiet quiet seq
    rw [List.length_map, List.length_append] at lengths
    rw [Log.count] at more
    omega

/-- One packet is queued and another one is written: the queued packet comes
twice. -/
theorem queued_packet_twice :
    ∃ writer, ((PacketWriter.new ⟨fun _ => 1, 0, []⟩).setSeq 0).applyAll
        ([.enqueuePacket [1], .writePacket [2]] ++ [.flush]) = .ok writer ∧
      ∃ reader, (PacketReader.new ⟨fun _ => 1, 0, writer.w.written⟩).nextTimes false 4 =
        .ok ([some [1], some [2], some [1], none], reader) := by
  obtain ⟨writer, applied, represents⟩ := applyAll_represents ⟨fun _ => 1, 0, []⟩ 0 rfl
    ([.enqueuePacket [1], .writePacket [2]] ++ [.flush])
  have short : ∀ byte : UInt8, ¬[byte].length ≥ u24Max := by
    intro byte
    rw [u24Max_eq]
    exact Nat.not_le.mpr (by simp)
  have sent : (Log.after 0 ([.enqueuePacket [1], .writePacket [2]] ++ [.flush])).sent =
      [(0, [1]), (1, [2]), (0, [1])] := by
    have first : seqAfter 0 [1] = 1 := seqAfter_short (short 1) 0
    simp only [Log.after, Log.start, List.foldl_cons, List.foldl_nil, Log.step,
      if_neg (short 2), first, List.nil_append, List.cons_append]
  have written := represents.written
  rw [sent] at written
  refine ⟨writer, applied, ?_⟩
  refine (@nextTimes_iff _ _ [(0, [1]), (1, [2]), (0, [1])] ?_ [[1], [2], [1]]).mpr
    ⟨rfl, fun _ _ on => by cases on⟩
  exact ⟨le_rfl, written⟩

end ReadySet.MysqlSrv
