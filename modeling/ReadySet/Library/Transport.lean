import ReadySet.Library.Codec

/-!
Owns byte transports that take and give bytes in pieces: how much a call moves is
fixed by a sequence of positive sizes, one for each call, which stands for every
way a stream can be cut.

Does not own failures of the transport.
-/

namespace ReadySet.Library

/-! ## Writing -/

/-- A transport that is written to. -/
structure Sink where
  /-- How much the calls take at most. -/
  sizes : Nat → ℕ+
  calls : Nat
  written : Bytes

namespace Sink

/-- Writes as many bytes of the slices as this call takes. -/
def writeVectored (sink : Sink) (slices : List Bytes) : Nat × Sink :=
  let didWrite := min (sink.sizes sink.calls : Nat) slices.flatten.length
  (didWrite, { sink with
    calls := sink.calls + 1
    written := sink.written ++ slices.flatten.take didWrite })

variable {sink : Sink} {slices : List Bytes}

theorem writeVectored_le : (sink.writeVectored slices).1 ≤ slices.flatten.length := min_le_right ..

/-- A call that does not write everything writes something. -/
theorem writeVectored_pos (more : (sink.writeVectored slices).1 ≠ slices.flatten.length) :
    0 < (sink.writeVectored slices).1 := by
  have taken := (sink.sizes sink.calls).pos
  simp only [writeVectored] at more ⊢
  omega

theorem written_writeVectored : (sink.writeVectored slices).2.written =
    sink.written ++ slices.flatten.take (sink.writeVectored slices).1 :=
  rfl

end Sink

/-! ## Reading -/

/-- A transport that is read from. -/
structure Source where
  /-- How much the calls give at most. -/
  sizes : Nat → ℕ+
  calls : Nat
  data : Bytes

namespace Source

/-- Reads as many bytes as there is room for and as this call gives. -/
def read (source : Source) (room : Nat) : Bytes × Source :=
  let count := min (source.sizes source.calls : Nat) room
  (source.data.take count, { source with
    calls := source.calls + 1
    data := source.data.drop count })

variable {source : Source} {room : Nat}

theorem read_append : (source.read room).1 ++ (source.read room).2.data = source.data :=
  List.take_append_drop ..

/-- Only at the end of the data nothing is read. -/
theorem read_eq_nil_iff (roomy : 0 < room) : (source.read room).1 = [] ↔ source.data = [] := by
  have given := (source.sizes source.calls).pos
  have pos : min (source.sizes source.calls : Nat) room ≠ 0 := by omega
  rw [read, List.take_eq_nil_iff]
  exact or_iff_right pos

theorem length_read_lt (nonempty : (source.read room).1 ≠ []) :
    (source.read room).2.data.length < source.data.length := by
  have lengths := congrArg List.length (@read_append source room)
  have pos := List.length_pos_iff.mpr nonempty
  rw [List.length_append] at lengths
  omega

end Source

end ReadySet.Library
