import Scuttlecast.Machine
import Scuttlecast.Proto.Message

/-! Shards on the wire: a header of twenty bytes, lowest byte first in every field, then the
payload, and the staging buffer in which the sender lines up shards of one size. -/
namespace Scuttlecast

abbrev headerSize : ℕ := 20

namespace Frame

def header (frame : Frame) : Bytes :=
  frameTag :: Varint.bytesLe 1 frame.sliceParity ++ Varint.bytesLe 2 frame.slot ++
    Varint.bytesLe 4 frame.transferId ++ Varint.bytesLe 4 frame.seq ++
      Varint.bytesLe 4 frame.sliceNo ++ Varint.bytesLe 4 frame.emitFloor

/-- The bytes of a datagram with this frame alone. -/
def bytes (frame : Frame) : Bytes := frame.header ++ frame.payload

/-- The number of `width` bytes that starts at `start`. -/
def field (datagram : Bytes) (start width : ℕ) : ℕ :=
  Varint.ofBytesLe ((datagram.drop start).take width)

/-- The same field, behind the check of the slice it is taken from. -/
def readField (datagram : Bytes) (start width : ℕ) : Except Panic ℕ :=
  if start + width ≤ datagram.length then .ok (field datagram start width)
  else .error (.outOfRange (start + width) datagram.length)

def parse (datagram : Bytes) : Except Panic (Except ProtocolError Frame) :=
  if datagram.length ≤ headerSize then .ok (.error (.frameTooShort datagram.length))
  else do
    let tag ← readField datagram 0 1
    if tag ≠ frameTag.toNat then .ok (.error (.unknownTag tag))
    else do
      let slot ← readField datagram 2 2
      let sliceParity ← readField datagram 1 1
      let transferId ← readField datagram 4 4
      let seq ← readField datagram 8 4
      let sliceNo ← readField datagram 12 4
      let emitFloor ← readField datagram 16 4
      .ok (.ok ⟨slot, sliceParity, transferId, seq, sliceNo, emitFloor, datagram.drop headerSize⟩)

/-- What the header's fields and the rest of a datagram make, whatever its tag. -/
def ofDatagram (datagram : Bytes) : Frame where
  slot := field datagram 2 2
  sliceParity := field datagram 1 1
  transferId := field datagram 4 4
  seq := field datagram 8 4
  sliceNo := field datagram 12 4
  emitFloor := field datagram 16 4
  payload := datagram.drop headerSize

/-- No slice of the parser leaves the datagram: a frame, or a refusal, is all that comes of it. -/
theorem parse_eq (datagram : Bytes) : parse datagram = .ok (
    if datagram.length ≤ headerSize then .error (.frameTooShort datagram.length)
    else if field datagram 0 1 ≠ frameTag.toNat then .error (.unknownTag (field datagram 0 1))
    else .ok (ofDatagram datagram)) := by
  have hread (start width : ℕ) (hlong : 20 < datagram.length) (hfit : start + width ≤ 20) :
      readField datagram start width = .ok (field datagram start width) :=
    if_pos (hfit.trans hlong.le)
  unfold parse
  split_ifs with hlen htag
  · rfl
  · have hlong : 20 < datagram.length := Nat.lt_of_not_le hlen
    rw [hread 0 1 hlong (by decide), ok_bind, if_pos htag]
  · have hlong : 20 < datagram.length := Nat.lt_of_not_le hlen
    rw [hread 0 1 hlong (by decide), ok_bind, if_neg htag, hread 2 2 hlong (by decide), ok_bind,
      hread 1 1 hlong (by decide), ok_bind, hread 4 4 hlong (by decide), ok_bind,
      hread 8 4 hlong (by decide), ok_bind, hread 12 4 hlong (by decide), ok_bind,
      hread 16 4 hlong (by decide), ok_bind]
    rfl

/-- Every number of the frame is one of its field's type. -/
structure InRange (frame : Frame) : Prop where
  slot : frame.slot < 2 ^ 16
  sliceParity : frame.sliceParity < 2 ^ 8
  transferId : frame.transferId < 2 ^ 32
  seq : frame.seq < 2 ^ 32
  sliceNo : frame.sliceNo < 2 ^ 32
  emitFloor : frame.emitFloor < 2 ^ 32

@[simp] theorem length_header (frame : Frame) : frame.header.length = headerSize := by
  simp [header]

@[simp] theorem length_bytes (frame : Frame) :
    frame.bytes.length = headerSize + frame.payload.length := by
  simp [bytes]

/-- A frame with a payload is read back as it was written. -/
theorem parse_bytes {frame : Frame} (h : frame.InRange) (hpayload : frame.payload ≠ []) :
    parse frame.bytes = .ok (.ok frame) := by
  have hpos := List.length_pos_iff.mpr hpayload
  have hlen : ¬ frame.bytes.length ≤ headerSize := by
    rw [length_bytes]
    omega
  have htag : field frame.bytes 0 1 = frameTag.toNat := rfl
  have hdrop : frame.bytes.drop headerSize = frame.payload :=
    List.drop_left' (length_header frame)
  have hparity : field frame.bytes 1 1 = frame.sliceParity := by
    simp [field, bytes, header, Varint.ofBytesLe_bytesLe (show frame.sliceParity < 256 ^ 1 from h.sliceParity)]
  have hslot : field frame.bytes 2 2 = frame.slot := by
    simp [field, bytes, header, Varint.ofBytesLe_bytesLe (show frame.slot < 256 ^ 2 from h.slot)]
  have htransfer : field frame.bytes 4 4 = frame.transferId := by
    simp [field, bytes, header, List.drop_append, Varint.drop_bytesLe,
      Varint.ofBytesLe_bytesLe (show frame.transferId < 256 ^ 4 from h.transferId)]
  have hseq : field frame.bytes 8 4 = frame.seq := by
    simp [field, bytes, header, List.drop_append, Varint.drop_bytesLe,
      Varint.ofBytesLe_bytesLe (show frame.seq < 256 ^ 4 from h.seq)]
  have hslice : field frame.bytes 12 4 = frame.sliceNo := by
    simp [field, bytes, header, List.drop_append, Varint.drop_bytesLe,
      Varint.ofBytesLe_bytesLe (show frame.sliceNo < 256 ^ 4 from h.sliceNo)]
  have hfloor : field frame.bytes 16 4 = frame.emitFloor := by
    simp [field, bytes, header, List.drop_append, Varint.drop_bytesLe,
      Varint.ofBytesLe_bytesLe (show frame.emitFloor < 256 ^ 4 from h.emitFloor)]
  rw [parse_eq, if_neg hlen, if_neg (not_not.mpr htag), ofDatagram, hparity, hslot, htransfer,
    hseq, hslice, hfloor, hdrop]

/-- The field that starts at `start` writes back the bytes it was read from. -/
theorem bytesLe_field {datagram : Bytes} {start width : ℕ} (h : start + width ≤ datagram.length) :
    Varint.bytesLe width (field datagram start width) = (datagram.drop start).take width := by
  have hlen : ((datagram.drop start).take width).length = width := by
    rw [List.length_take, List.length_drop]
    omega
  have hback := Varint.bytesLe_ofBytesLe ((datagram.drop start).take width)
  rwa [hlen] at hback

/-- Header and payload of a parsed frame are the datagram it was parsed from. -/
theorem bytes_of_parse {datagram : Bytes} {frame : Frame}
    (h : parse datagram = .ok (.ok frame)) : frame.bytes = datagram := by
  rw [parse_eq, Except.ok.injEq] at h
  split_ifs at h with hlen htag
  rw [Except.ok.injEq] at h
  subst h
  rw [not_not] at htag
  have hlong : 20 < datagram.length := Nat.lt_of_not_le hlen
  have hfirst : datagram.take 1 = [frameTag] := by
    have hback := @bytesLe_field datagram 0 1 (by omega)
    rw [htag, List.drop_zero] at hback
    exact hback.symm
  have hjoin (start width : ℕ) : (datagram.drop start).take width ++
      datagram.drop (start + width) = datagram.drop start := by
    rw [← List.drop_drop, List.take_append_drop]
  simp only [bytes, header, ofDatagram]
  rw [bytesLe_field (by omega), bytesLe_field (by omega), bytesLe_field (by omega),
    bytesLe_field (by omega), bytesLe_field (by omega), bytesLe_field (by omega)]
  simp only [List.cons_append, List.append_assoc]
  rw [hjoin 16 4, hjoin 12 4, hjoin 8 4, hjoin 4 4, hjoin 2 2, hjoin 1 1]
  calc frameTag :: datagram.drop 1 = datagram.take 1 ++ datagram.drop 1 := by rw [hfirst]; rfl
    _ = datagram := List.take_append_drop 1 datagram

end Frame

abbrev maxIpDatagram : ℕ := 2 ^ 16 - 1

abbrev udpMaxSegments : ℕ := 128

def segmentsPerDatagram (segmentSize : ℕ) : ℕ :=
  max 1 (min (maxIpDatagram / segmentSize) udpMaxSegments)

structure FrameBatch where
  staging : Bytes
  segmentSize : ℕ
  segments : ℕ
  limit : ℕ

namespace FrameBatch

def new (blockSize maxSegments : ℕ) : FrameBatch :=
  let segmentSize := headerSize + blockSize
  let capacity := min (segmentsPerDatagram segmentSize) (max maxSegments 1)
  ⟨List.replicate (capacity * segmentSize) 0, segmentSize, 0, capacity⟩

def capacity (b : FrameBatch) : ℕ := b.staging.length / b.segmentSize

def narrowTo (b : FrameBatch) (segments : ℕ) : FrameBatch :=
  { b with limit := max 1 (min segments b.capacity) }

def isEmpty (b : FrameBatch) : Bool := b.segments = 0

def isFull (b : FrameBatch) : Bool := b.limit ≤ b.segments

/-- `copy_from_slice` into the part of `buffer` that starts at `start`. -/
def overwrite (buffer : Bytes) (start : ℕ) (bytes : Bytes) : Bytes :=
  buffer.take start ++ bytes ++ buffer.drop (start + bytes.length)

/-- The next segment of the buffer is taken, and in it a part as long as the payload; only then
is anything written. -/
def push (b : FrameBatch) (frame : Frame) : Except Panic FrameBatch :=
  let start := b.segments * b.segmentSize
  if b.staging.length < start + b.segmentSize then
    .error (.outOfRange (start + b.segmentSize) b.staging.length)
  else if b.segmentSize < headerSize + frame.payload.length then
    .error (.outOfRange (headerSize + frame.payload.length) b.segmentSize)
  else .ok { b with
    staging := overwrite (overwrite b.staging start frame.header) (start + headerSize) frame.payload
    segments := b.segments + 1 }

def filled (b : FrameBatch) : Bytes := b.staging.take (b.segments * b.segmentSize)

def clear (b : FrameBatch) : FrameBatch := { b with segments := 0 }

theorem overwrite_append {buffer bytes rest : Bytes} {start : ℕ} (h : start ≤ buffer.length) :
    overwrite buffer start (bytes ++ rest) =
      overwrite (overwrite buffer start bytes) (start + bytes.length) rest := by
  have hlen : (buffer.take start ++ bytes).length = start + bytes.length := by simp [h]
  have hdrop : (buffer.take start ++ bytes ++ buffer.drop (start + bytes.length)).drop
      (start + bytes.length + rest.length) = buffer.drop (start + bytes.length + rest.length) := by
    rw [← List.drop_drop, List.drop_left' hlen, List.drop_drop]
  unfold overwrite
  rw [List.take_left' hlen, hdrop, List.length_append, Nat.add_assoc, List.append_assoc,
    List.append_assoc, List.append_assoc, List.append_assoc]

theorem length_overwrite {buffer bytes : Bytes} {start : ℕ}
    (h : start + bytes.length ≤ buffer.length) :
    (overwrite buffer start bytes).length = buffer.length := by
  simp only [overwrite, List.length_append, List.length_take, List.length_drop]
  omega

theorem take_overwrite {buffer bytes : Bytes} {start : ℕ} (h : start ≤ buffer.length) :
    (overwrite buffer start bytes).take (start + bytes.length) = buffer.take start ++ bytes := by
  apply List.take_left'
  simp [h]

/-- The batch is laid out in segments that hold the frames, one after the other, and whatever
was left behind by those flushed before. -/
structure Holds (b : FrameBatch) (frames : List Frame) : Prop where
  header_lt : headerSize < b.segmentSize
  whole : b.staging.length = b.capacity * b.segmentSize
  limit_pos : 0 < b.limit
  limit_le : b.limit ≤ b.capacity
  segments_eq : b.segments = frames.length
  segments_le : b.segments ≤ b.capacity
  filled_eq : b.filled = frames.flatMap Frame.bytes
  sized : ∀ frame ∈ frames, frame.bytes.length = b.segmentSize

theorem new_holds {blockSize : ℕ} (hblock : 0 < blockSize) (maxSegments : ℕ) :
    (new blockSize maxSegments).Holds [] := by
  have hcapacity : (new blockSize maxSegments).capacity = (new blockSize maxSegments).limit := by
    rw [capacity, new, List.length_replicate]
    exact Nat.mul_div_cancel _ (by omega)
  have hpos : 0 < (new blockSize maxSegments).limit := by
    simp only [new, segmentsPerDatagram]
    omega
  constructor
  · exact Nat.lt_add_of_pos_right hblock
  · rw [hcapacity]
    exact List.length_replicate
  · exact hpos
  · exact hcapacity.ge
  · rfl
  · exact Nat.zero_le _
  · simp [filled, new]
  · simp

variable {b : FrameBatch} {frames : List Frame}

theorem Holds.narrowTo (h : b.Holds []) (segments : ℕ) : (b.narrowTo segments).Holds [] := by
  have hcapacity : (b.narrowTo segments).capacity = b.capacity := rfl
  have := h.limit_pos
  have := h.limit_le
  constructor
  · exact h.header_lt
  · exact h.whole
  · simp only [FrameBatch.narrowTo]
    omega
  · rw [hcapacity]
    simp only [FrameBatch.narrowTo]
    omega
  · exact h.segments_eq
  · exact h.segments_le
  · exact h.filled_eq
  · exact h.sized

theorem Holds.clear (h : b.Holds frames) : b.clear.Holds [] := by
  constructor
  · exact h.header_lt
  · exact h.whole
  · exact h.limit_pos
  · exact h.limit_le
  · rfl
  · exact Nat.zero_le _
  · simp [filled, FrameBatch.clear]
  · simp

/-- Below the capacity there is room for one more frame of the block size. -/
theorem Holds.push (h : b.Holds frames) (hroom : b.segments < b.capacity) {frame : Frame}
    (hsize : frame.bytes.length = b.segmentSize) :
    ∃ b', b.push frame = .ok b' ∧ b'.Holds (frames ++ [frame]) ∧
      b'.segmentSize = b.segmentSize ∧ b'.limit = b.limit := by
  have hend : b.segments * b.segmentSize + b.segmentSize ≤ b.staging.length := by
    rw [h.whole, ← Nat.succ_mul]
    exact Nat.mul_le_mul_right _ hroom
  have hpayload : headerSize + frame.payload.length = b.segmentSize := by
    rw [← hsize, Frame.length_bytes]
  have hwritten : overwrite (overwrite b.staging (b.segments * b.segmentSize) frame.header)
      (b.segments * b.segmentSize + headerSize) frame.payload =
        overwrite b.staging (b.segments * b.segmentSize) frame.bytes := by
    rw [Frame.bytes, overwrite_append (by omega), Frame.length_header]
  have hlength : (overwrite b.staging (b.segments * b.segmentSize) frame.bytes).length =
      b.staging.length := length_overwrite (by omega)
  refine ⟨{ b with
    staging := overwrite b.staging (b.segments * b.segmentSize) frame.bytes
    segments := b.segments + 1 }, ?_, ?_, rfl, rfl⟩
  · rw [FrameBatch.push, if_neg (by omega), if_neg (by omega), hwritten]
  · have hcapacity : capacity { b with
        staging := overwrite b.staging (b.segments * b.segmentSize) frame.bytes
        segments := b.segments + 1 } = b.capacity := by
      rw [capacity, hlength, capacity]
    constructor
    · exact h.header_lt
    · rw [hcapacity, ← h.whole]
      exact hlength
    · exact h.limit_pos
    · rw [hcapacity]
      exact h.limit_le
    · simp [h.segments_eq]
    · rw [hcapacity]
      exact hroom
    · have htake := @take_overwrite b.staging frame.bytes (b.segments * b.segmentSize) (by omega)
      rw [hsize] at htake
      rw [filled, Nat.succ_mul, htake, ← filled, h.filled_eq]
      simp
    · intro f hf
      rcases List.mem_append.mp hf with hf | hf
      · exact h.sized f hf
      · rw [List.mem_singleton.mp hf]
        exact hsize

end FrameBatch
end Scuttlecast
