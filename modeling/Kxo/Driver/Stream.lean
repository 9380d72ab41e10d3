import Kxo.Spec.Device
import Mathlib.Data.List.Basic

/-!
# Kxo — record framing (`src/main.c`, `user/xo-user.c`)

A reader takes the stream apart in pieces of `sizeof(struct xo_table)`. The writer does not ask for
room first: into less room than a record it writes the head of one, and every record after it starts
in the middle of a piece.
-/

namespace Kxo

/-- Everything read so far and everything still in the ring. -/
def Device.stream (d : Device) : List Byte := d.consumed ++ d.rxFifo

/-- The stream is whole records, a subsequence of those produced. -/
def Framed (d : Device) : Prop :=
  ∃ records : List XoTable, records.Sublist d.produced ∧ d.stream = records.flatMap recordBytes

/-- The room left in the ring. -/
def Device.room (d : Device) : Nat := pageSize - d.rxFifo.length

/-- A record is produced only into room for a whole one, or into none. -/
def RoomForRecord (d : Device) : DeviceEvent → Prop
  | .produceBoard _ => d.room = 0 ∨ recordSize ≤ d.room
  | .kxoRead _ => True

/-- As many bytes as were asked for. -/
@[simp] theorem length_leBytes {w : Nat} (n : Nat) (x : BitVec w) : (leBytes n x).length = n := by
  simp [leBytes]

/-- A record has `recordSize` bytes. -/
theorem length_recordBytes (xoTlb : XoTable) : (recordBytes xoTlb).length = recordSize := by
  simp [recordBytes, recordSize]

/-- So has each of several. -/
theorem length_flatMap_recordBytes (records : List XoTable) :
    (records.flatMap recordBytes).length = records.length * recordSize := by
  induction records with
  | nil => rfl
  | cons x rest ih =>
    rw [List.flatMap_cons, List.length_append, length_recordBytes, ih, List.length_cons,
      Nat.succ_mul, Nat.add_comm]

/-- Reading moves bytes from the ring to the reader. -/
theorem stream_kxoRead (d : Device) (count : Nat) : (kxoRead d count).stream = d.stream := by
  simp [Device.stream, kxoRead]

/-- Producing a record appends as much of it as there is room for. -/
theorem stream_produceBoard (d : Device) (xoTlb : XoTable) :
    (produceBoard d xoTlb).stream = d.stream ++ (recordBytes xoTlb).take d.room := by
  simp [Device.stream, produceBoard, kfifoIn, Device.room]

/-- **One call.** From a framed stream, a call leaves a framed one exactly when a record produced
fits, or finds no room at all. -/
theorem framed_step {d d' : Device} {e : DeviceEvent} (h : Framed d)
    (hstep : deviceSystem.step d e d') : Framed d' ↔ RoomForRecord d e := by
  obtain ⟨records, hsub, hstream⟩ := h
  cases e with
  | kxoRead count =>
    obtain ⟨_, rfl⟩ := hstep
    exact iff_of_true ⟨records, hsub, (stream_kxoRead d count).trans hstream⟩ trivial
  | produceBoard xoTlb =>
    obtain rfl := hstep
    constructor
    · -- the length of a framed stream is a multiple of the record size
      rintro ⟨records', _, hstream'⟩
      have hlen := congrArg List.length hstream'
      rw [stream_produceBoard, hstream, List.length_append, List.length_take,
        length_flatMap_recordBytes, length_flatMap_recordBytes, length_recordBytes] at hlen
      simp only [RoomForRecord, recordSize] at hlen ⊢
      omega
    · rintro (hnone | hroom)
      · refine ⟨records, hsub.trans (List.sublist_append_left _ _), ?_⟩
        rw [stream_produceBoard, hnone, List.take_zero, List.append_nil]
        exact hstream
      · refine ⟨records ++ [xoTlb], hsub.append (List.Sublist.refl _), ?_⟩
        rw [stream_produceBoard, List.take_of_length_le (by rw [length_recordBytes]; exact hroom),
          hstream, List.flatMap_append]
        simp

/-- An empty ring is framed. -/
theorem framed_init : Framed deviceInit := ⟨[], List.Sublist.refl _, rfl⟩

/-- **When the stream keeps its framing.** Along a run from the empty ring the stream is whole
records in every state exactly when every record produced found room for all of it or for none. -/
theorem framed_iff_roomForRecord {tr : List (DeviceEvent × Device)}
    (h : deviceSystem.Run deviceInit tr) :
    (∀ p ∈ tr, Framed p.2) ↔ (deviceSystem.restrict RoomForRecord).Run deviceInit tr :=
  h.forall_iff_restrict (I := fun _ => True) ⟨fun _ _ => trivial, fun _ _ _ _ _ => trivial⟩
    (fun _ _ _ _ => framed_step) trivial framed_init

/-- One record produced, and its first byte read. -/
theorem framed_iff_roomForRecord_short :
    (∀ p ∈ [(DeviceEvent.produceBoard ⟨0, 0, 0⟩, produceBoard deviceInit ⟨0, 0, 0⟩),
        (DeviceEvent.kxoRead 1, kxoRead (produceBoard deviceInit ⟨0, 0, 0⟩) 1)], Framed p.2) ↔
      (deviceSystem.restrict RoomForRecord).Run deviceInit
        [(DeviceEvent.produceBoard ⟨0, 0, 0⟩, produceBoard deviceInit ⟨0, 0, 0⟩),
          (DeviceEvent.kxoRead 1, kxoRead (produceBoard deviceInit ⟨0, 0, 0⟩) 1)] :=
  framed_iff_roomForRecord (.cons rfl (.cons ⟨by decide, rfl⟩ (.nil _)))

/-! ## A run that loses the framing

The ring is a page and a record divides it, so only a client that reads part of a record makes the
room an odd one. -/

/-- The run of a list of calls. -/
def deviceTrace : Device → List DeviceEvent → List (DeviceEvent × Device)
  | _, [] => []
  | d, .produceBoard x :: rest =>
      (.produceBoard x, produceBoard d x) :: deviceTrace (produceBoard d x) rest
  | d, .kxoRead count :: rest =>
      (.kxoRead count, kxoRead d count) :: deviceTrace (kxoRead d count) rest

/-- The run exists, if no read asks for nothing. -/
theorem run_deviceTrace (d : Device) (events : List DeviceEvent)
    (h : ∀ count, .kxoRead count ∈ events → 0 < count) :
    deviceSystem.Run d (deviceTrace d events) := by
  induction events generalizing d with
  | nil => exact .nil d
  | cons e rest ih =>
    have hrest : ∀ count, .kxoRead count ∈ rest → 0 < count := fun c hc => h c (by simp [hc])
    cases e with
    | produceBoard x => exact .cons rfl (ih _ hrest)
    | kxoRead count => exact .cons ⟨h count (by simp), rfl⟩ (ih _ hrest)

/-- While there is room for whole records, `n` of them take up `n` times their size. -/
theorem mem_deviceTrace_fill (x : XoTable) (rest : List DeviceEvent) (n : Nat) :
    ∀ d : Device, d.rxFifo.length + n * recordSize ≤ pageSize →
      ∃ d' : Device, d'.consumed = d.consumed ∧
        d'.rxFifo.length = d.rxFifo.length + n * recordSize ∧
        deviceTrace d' rest <:+ deviceTrace d (List.replicate n (.produceBoard x) ++ rest) := by
  induction n with
  | zero => exact fun d _ => ⟨d, rfl, by simp, List.suffix_rfl⟩
  | succ n ih =>
    intro d hroom
    rw [Nat.succ_mul] at hroom
    have hlen : (produceBoard d x).rxFifo.length = d.rxFifo.length + recordSize := by
      simp only [produceBoard, kfifoIn]
      rw [List.length_append, List.take_of_length_le (by rw [length_recordBytes]; omega),
        length_recordBytes]
    obtain ⟨d', hconsumed, hfifo, hsuffix⟩ := ih (produceBoard d x) (by omega)
    refine ⟨d', hconsumed, by rw [hfifo, hlen, Nat.succ_mul]; omega, ?_⟩
    rw [List.replicate_succ, List.cons_append, deviceTrace]
    exact hsuffix.trans (List.suffix_cons _ _)

/-- Fill the ring, read one byte, produce one more record. -/
def overflowEvents : List DeviceEvent :=
  List.replicate 256 (.produceBoard ⟨0, 0, 0⟩) ++ [.kxoRead 1, .produceBoard ⟨0, 0, 0⟩]

/-- With 256 records in the ring and one byte read, the next record leaves one byte of itself. -/
theorem overflow_not_framed :
    deviceSystem.Run deviceInit (deviceTrace deviceInit overflowEvents) ∧
      ¬ ∀ p ∈ deviceTrace deviceInit overflowEvents, Framed p.2 := by
  refine ⟨run_deviceTrace _ _ ?_, fun hall => ?_⟩
  · intro count hmem
    simp only [overflowEvents, List.mem_append, List.mem_replicate, List.mem_cons,
      List.not_mem_nil, or_false, reduceCtorEq, and_false, false_or,
      DeviceEvent.kxoRead.injEq] at hmem
    omega
  · obtain ⟨d, hconsumed, hfifo, hsuffix⟩ := mem_deviceTrace_fill ⟨0, 0, 0⟩
      [.kxoRead 1, .produceBoard ⟨0, 0, 0⟩] 256 deviceInit (by decide)
    have hlast : (DeviceEvent.produceBoard ⟨0, 0, 0⟩, produceBoard (kxoRead d 1) ⟨0, 0, 0⟩) ∈
        deviceTrace deviceInit overflowEvents := hsuffix.subset (by simp [deviceTrace])
    obtain ⟨records, _, hstream⟩ := hall _ hlast
    have hlen := congrArg List.length hstream
    have hd : d.rxFifo.length = 4096 := hfifo
    rw [stream_produceBoard, stream_kxoRead, length_flatMap_recordBytes, List.length_append,
      List.length_take, length_recordBytes] at hlen
    simp only [Device.stream, Device.room, kxoRead, hconsumed, deviceInit, List.nil_append,
      List.length_drop, hd, recordSize, pageSize] at hlen
    omega

end Kxo
