import ReadySet.Library.Transport

/-!
Owns the packets of the MySQL protocol, as `mysql-srv` writes and reads them.
`PacketWriter` cuts a packet into frames of at most `u24Max` bytes, each after
its length and a sequence number, and sends queued frames and new ones with
vectored writes. `PacketReader` collects what a transport gives until the
`packet` parser finds a whole packet.

Sequence numbers are bytes. The writer wraps them around, and the reader adds
one with the plain `+`, which panics at 255 in builds with overflow checks: the
reader has this setting as a parameter.

Does not own raw packets that others prepare, the pool's reuse of buffers, and
failures of the transport.
-/

namespace ReadySet.MysqlSrv

open Library

@[irreducible] def u24Max : Nat := 16777215

theorem u24Max_eq : u24Max = 16777215 := by rw [u24Max]

def maxPoolRows : Nat := 4096

inductive IoError where
  | indexErr (data : String) (index length : Nat)
  | invalidData
  | unexpectedEof (message : String)
  deriving DecidableEq, Repr

/-- How a call ends that does not return normally. -/
inductive Failure where
  | io (error : IoError)
  | panicked (message : String)
  deriving DecidableEq, Repr

/-! ## Writing slices -/

/-- The slices that are left after some bytes of them are written. -/
def skipSlices : Nat → List Bytes → Except Failure (List Bytes)
  | _, [] => .error (.panicked "index out of bounds")
  | didWrite, slice :: slices =>
    if didWrite ≥ slice.length then skipSlices (didWrite - slice.length) slices
    else .ok (slice.drop didWrite :: slices)

theorem skipSlices_flatten {didWrite : Nat} {slices rest : List Bytes}
    (skipped : skipSlices didWrite slices = .ok rest) :
    rest.flatten = slices.flatten.drop didWrite := by
  induction slices generalizing didWrite with
  | nil => cases skipped
  | cons slice slices ih =>
    rw [skipSlices] at skipped
    by_cases whole : didWrite ≥ slice.length
    · rw [if_pos whole] at skipped
      rw [ih skipped, List.flatten_cons, List.drop_append,
        List.drop_eq_nil_of_le whole, List.nil_append]
    · rw [if_neg whole] at skipped
      obtain rfl := Except.ok.inj skipped
      rw [List.flatten_cons, List.flatten_cons,
        List.drop_append_of_le_length (Nat.le_of_not_ge whole)]

/-- The loop of `write_all_vectored`, where `n` bytes are left to write. -/
def writeRemaining (w : Sink) (n : Nat) (slices : List Bytes)
    (total : n = slices.flatten.length) : Except Failure Sink :=
  let didWrite := (w.writeVectored slices).1
  if done : didWrite = n then .ok (w.writeVectored slices).2
  else
    match skipped : skipSlices didWrite slices with
    | .error problem => .error problem
    | .ok rest =>
      writeRemaining (w.writeVectored slices).2 (n - didWrite) rest
        (by rw [skipSlices_flatten skipped, List.length_drop, ← total])
termination_by n
decreasing_by
  have some := Sink.writeVectored_pos (total ▸ done)
  have most : (w.writeVectored slices).1 ≤ slices.flatten.length := Sink.writeVectored_le
  omega

def writeAllVectored (w : Sink) (slices : List Bytes) : Except Failure Sink :=
  writeRemaining w (slices.map List.length).sum slices List.length_flatten.symm

/-! ## Writer -/

inductive QueuedPacket where
  | raw (packet : Bytes)
  | withHeader (hdr packet : Bytes)

def queuedPacketSlices (queue : List QueuedPacket) : List Bytes :=
  queue.flatMap fun
    | .withHeader hdr pack => [hdr, pack]
    | .raw r => [r]

structure PacketWriter where
  seq : UInt8
  w : Sink
  queue : List QueuedPacket
  preallocated : List QueuedPacket

/-- The header of a frame: the length as the four bytes of a `u32`, of which the
last one becomes the sequence number. -/
def header (length : Nat) (seq : UInt8) : Bytes := (littleEndian 4 (length % 2 ^ 32)).set 3 seq

namespace PacketWriter

def new (w : Sink) : PacketWriter where
  seq := 0
  w := w
  queue := []
  preallocated := []

def setSeq (self : PacketWriter) (seq : UInt8) : PacketWriter := { self with seq := seq }

/-- One frame is queued. -/
def push (self : PacketWriter) (packet : Bytes) : PacketWriter :=
  { self with
    seq := self.seq + 1
    queue := self.queue ++ [.withHeader (header packet.length self.seq) packet] }

def enqueuePacket (self : PacketWriter) (packet : Bytes) : PacketWriter :=
  if packet.length ≥ u24Max then
    enqueuePacket (self.push (packet.take u24Max)) (packet.drop u24Max)
  else self.push packet
termination_by packet.length
decreasing_by
  rw [List.length_drop]
  have positive := u24Max_eq
  omega

def returnQueuedToPool (self : PacketWriter) : PacketWriter :=
  let swapped := self.queue.length > self.preallocated.length
  let queue := if swapped then self.preallocated else self.queue
  let preallocated := (if swapped then self.queue else self.preallocated).take maxPoolRows
  { self with
    preallocated := preallocated ++ queue.take (maxPoolRows - preallocated.length)
    queue := [] }

def writeQueuedPackets (self : PacketWriter) : Except Failure PacketWriter :=
  let slices := queuedPacketSlices self.queue
  if slices.isEmpty then .ok self
  else do
    let w ← writeAllVectored self.w slices
    return { self with w := w }.returnQueuedToPool

def flush (self : PacketWriter) : Except Failure PacketWriter := self.writeQueuedPackets

/-- The headers of a large packet, and the next sequence number. -/
def largeHeaders (seq : UInt8) (totalLen : Nat) : List Bytes × UInt8 :=
  if totalLen ≥ u24Max then
    let rest := largeHeaders (seq + 1) (totalLen - u24Max)
    (header u24Max seq :: rest.1, rest.2)
  else ([header totalLen seq], seq + 1)
termination_by (totalLen, ())
decreasing_by
  have positive := u24Max_eq
  omega

/-- The headers of a large packet, each before its part of the packet. -/
def largeSlices : List Bytes → Bytes → List Bytes
  | [], _ => []
  | header :: headers, packet =>
    if packet.length ≥ u24Max then
      header :: packet.take u24Max :: largeSlices headers (packet.drop u24Max)
    else header :: packet :: largeSlices headers packet

def writeLargePacket (self : PacketWriter) (packet : Bytes) : Except Failure PacketWriter := do
  let slices := queuedPacketSlices self.queue
  let (headers, seq) := largeHeaders self.seq packet.length
  let w ← writeAllVectored self.w (slices ++ largeSlices headers packet)
  return { self with seq := seq, w := w }.returnQueuedToPool

def writePacket (self : PacketWriter) (packet : Bytes) : Except Failure PacketWriter :=
  if packet.length ≥ u24Max then self.writeLargePacket packet
  else do
    let slices := queuedPacketSlices self.queue
    let packetLen := (littleEndian 8 packet.length).take 3
    let w ← writeAllVectored self.w (slices ++ [packetLen, [self.seq], packet])
    return { self with w := w, seq := self.seq + 1 }

end PacketWriter

/-- The calls that hand packets to a writer and send them. -/
inductive Op where
  | enqueuePacket (packet : Bytes)
  | writePacket (packet : Bytes)
  | writeQueuedPackets
  | flush

namespace PacketWriter

def apply (self : PacketWriter) : Op → Except Failure PacketWriter
  | .enqueuePacket packet => .ok (self.enqueuePacket packet)
  | .writePacket packet => self.writePacket packet
  | .writeQueuedPackets => self.writeQueuedPackets
  | .flush => self.flush

def applyAll (self : PacketWriter) (ops : List Op) : Except Failure PacketWriter :=
  ops.foldlM apply self

end PacketWriter

/-! ## Parsers -/

/-- How a parser of `nom` fails, or its caller's code panics. A parser that
succeeds returns the rest of its input and what it has read. -/
inductive NomErr where
  | incomplete
  | error
  | failure
  | panicked (message : String)
  deriving DecidableEq, Repr

def tag (wanted i : Bytes) : Except NomErr (Bytes × Bytes) :=
  if i.take wanted.length = wanted then .ok (i.drop wanted.length, wanted) else .error .error

def take (count : Nat) (i : Bytes) : Except NomErr (Bytes × Bytes) :=
  if count ≤ i.length then .ok (i.drop count, i.take count) else .error .error

def leU24 (i : Bytes) : Except NomErr (Bytes × Nat) := do
  let (i, bytes) ← take 3 i
  return (i, ofLittleEndian bytes)

/-- The first byte of a slice. -/
def first : Bytes → Except NomErr UInt8
  | [] => .error (.panicked "index out of bounds")
  | byte :: _ => .ok byte

def fullpacket (i : Bytes) : Except NomErr (Bytes × UInt8 × Bytes) := do
  let (i, _) ← tag [0xff, 0xff, 0xff] i
  let (i, seq) ← take 1 i
  let (i, bytes) ← take u24Max i
  return (i, ← first seq, bytes)

def onepacket (i : Bytes) : Except NomErr (Bytes × UInt8 × Bytes) := do
  let (i, length) ← leU24 i
  let (i, seq) ← take 1 i
  let (i, bytes) ← take length i
  return (i, ← first seq, bytes)

/-- `nom::multi::fold_many0`, with a function that may panic. -/
def foldMany0 {α β : Type} (f : Bytes → Except NomErr (Bytes × α)) (g : β → α → Except NomErr β)
    (acc : β) (i : Bytes) : Except NomErr (Bytes × β) :=
  match f i with
  | .ok (rest, o) =>
    if rest.length < i.length then
      match g acc o with
      | .ok acc => foldMany0 f g acc rest
      | .error problem => .error problem
    else .error .error
  | .error .error => .ok (i, acc)
  | .error problem => .error problem
termination_by i.length

/-- A packet that borrows its bytes as long as they are in one piece. -/
structure Packet where
  borrowed : Bytes
  owned : Bytes
  deriving DecidableEq, Repr

namespace Packet

def extend (self : Packet) (bytes : Bytes) : Except NomErr Packet :=
  if self.borrowed.isEmpty then
    if self.owned.isEmpty then .ok { self with borrowed := bytes }
    else .ok { self with owned := self.owned ++ bytes }
  else if self.owned.isEmpty then .ok { borrowed := [], owned := self.borrowed ++ bytes }
  else .error (.panicked "assertion failed: self.1.is_empty()")

def asRef (self : Packet) : Bytes := if self.owned.isEmpty then self.borrowed else self.owned

end Packet

section

variable (checks : Bool)

/-- The plain `seq + 1`. -/
def plusOne (seq : UInt8) : Except NomErr UInt8 :=
  if checks ∧ seq = 255 then .error (.panicked "attempt to add with overflow")
  else .ok (seq + 1)

/-- Appends a frame to the packet so far, whose last sequence number is
checked. -/
def append (full : UInt8 × Option Packet) (frame : UInt8 × Bytes) : Except NomErr Packet :=
  match full.2 with
  | some pkt => do
      if frame.1 = (← plusOne checks full.1) then pkt.extend frame.2
      else throw (.panicked "assertion failed: (left == right)")
  | none => .ok { borrowed := frame.2, owned := [] }

def packet (i : Bytes) : Except NomErr (Bytes × UInt8 × Packet) := do
  let (i, full) ← foldMany0 fullpacket
    (fun full frame => return (frame.1, some (← append checks full frame)))
    ((0, none) : UInt8 × Option Packet) i
  let (i, last) ← onepacket i
  return (i, last.1, ← append checks full last)

/-! ## Reader -/

structure PacketReader where
  bytes : Bytes
  start : Nat
  remaining : Nat
  r : Source

namespace PacketReader

def new (r : Source) : PacketReader where
  bytes := []
  start := 0
  remaining := 0
  r := r

/-- What `next` finds in the bytes it has: a packet, or that it needs more. -/
def parse (self : PacketReader) : Except Failure (Option ((UInt8 × Packet) × PacketReader)) :=
  if self.remaining ≠ 0 then
    if self.start ≤ self.bytes.length then
      match packet checks (self.bytes.drop self.start) with
      | .ok (rest, p) => .ok (some (p, { self with remaining := rest.length }))
      | .error .incomplete => .ok none
      | .error .error => .ok none
      | .error .failure => .error (.io .invalidData)
      | .error (.panicked message) => .error (.panicked message)
    else .error (.io (.indexErr "self.bytes" self.start self.bytes.length))
  else .ok none

/-- Drops the bytes that were used and reads more: how many, and the reader. -/
def fill (self : PacketReader) : Nat × PacketReader :=
  let bytes := self.bytes.drop self.start
  let newLen := max 4096 (bytes.length * 2)
  let (read, r) := self.r.read (newLen - bytes.length)
  (read.length,
    { bytes := bytes ++ read, start := 0, remaining := (bytes ++ read).length, r := r })

/-- The loop of `next`. -/
def collect (self : PacketReader) : Except Failure (Option (UInt8 × Packet) × PacketReader) :=
  match self.parse checks with
  | .error problem => .error problem
  | .ok (some (p, self)) => .ok (some p, self)
  | .ok none =>
    if _ : self.fill.1 = 0 then
      if self.fill.2.bytes.isEmpty then .ok (none, self.fill.2)
      else .error (.io (.unexpectedEof (toString self.fill.2.bytes.length ++ " unhandled bytes")))
    else self.fill.2.collect
termination_by self.r.data.length
decreasing_by
  rename_i read
  exact Source.length_read_lt fun empty => read (congrArg List.length empty)

def next (self : PacketReader) : Except Failure (Option (UInt8 × Packet) × PacketReader) :=
  if self.remaining ≤ self.bytes.length then
    { self with start := self.bytes.length - self.remaining }.collect checks
  else .error (.panicked "attempt to subtract with overflow")

/-- The packets that a number of calls of `next` return. -/
def nextTimes : Nat → PacketReader → Except Failure (List (Option Bytes) × PacketReader)
  | 0, self => .ok ([], self)
  | count + 1, self => do
      let (found, self) ← self.next checks
      let (others, self) ← nextTimes count self
      return (found.map (fun p => p.2.asRef) :: others, self)

end PacketReader

end

end ReadySet.MysqlSrv
