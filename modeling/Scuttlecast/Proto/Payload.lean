import Scuttlecast.ReedSolomon

/-! The messages of the protocol and the errors a transfer can end with. Numbers are the
values of the source's unsigned types; times are nanoseconds. -/
namespace Scuttlecast

/-- The shape of a transfer as a `Hello` announces it: non-zero counts at their own widths. -/
structure Geometry where
  blockSize : ℕ
  blocksPerSlice : ℕ
  parityPerSlice : ℕ
  maxLiveSlices : ℕ
  blockSize_pos : 0 < blockSize
  blockSize_lt : blockSize < 2 ^ 32
  blocksPerSlice_pos : 0 < blocksPerSlice
  blocksPerSlice_lt : blocksPerSlice < 2 ^ 16
  parityPerSlice_lt : parityPerSlice < 2 ^ 8
  maxLiveSlices_pos : 0 < maxLiveSlices
  maxLiveSlices_lt : maxLiveSlices < 2 ^ 16
  deriving DecidableEq, Repr

namespace Geometry

/-- A shape of counts that are seen to be in range. -/
abbrev of (blockSize blocksPerSlice parityPerSlice maxLiveSlices : ℕ)
    (h : 0 < blockSize ∧ blockSize < 2 ^ 32 ∧ 0 < blocksPerSlice ∧ blocksPerSlice < 2 ^ 16 ∧
      parityPerSlice < 2 ^ 8 ∧ 0 < maxLiveSlices ∧ maxLiveSlices < 2 ^ 16 := by decide) :
    Geometry :=
  ⟨blockSize, blocksPerSlice, parityPerSlice, maxLiveSlices, h.1, h.2.1, h.2.2.1, h.2.2.2.1,
    h.2.2.2.2.1, h.2.2.2.2.2.1, h.2.2.2.2.2.2⟩

/-- The shapes both `Window::new` and `Assembler::new` build a codec for. -/
def Accepted (g : Geometry) : Prop :=
  g.parityPerSlice = 0 ∨ Supported g.blocksPerSlice g.parityPerSlice g.blockSize

instance (g : Geometry) : Decidable g.Accepted := by
  unfold Accepted
  infer_instance

/-- Every width up to the announced one has a codec. -/
theorem Accepted.supported {g : Geometry} (h : g.Accepted) {w : ℕ} (hpos : 0 < w)
    (hle : w ≤ g.parityPerSlice) : Supported g.blocksPerSlice w g.blockSize := by
  rcases h with h | h
  · omega
  · exact h.narrow hpos hle

end Geometry

structure Hello where
  transferId : ℕ
  geometry : Geometry
  totalBytes : Option ℕ
  deriving DecidableEq, Repr

structure Stats where
  transferId : ℕ
  receiverId : ℕ
  totalReceived : ℕ
  totalExpected : ℕ
  nextNeededSlice : ℕ
  sinkStallMs : ℕ
  deriving DecidableEq, Repr

structure Nak where
  transferId : ℕ
  receiverId : ℕ
  sliceNo : ℕ
  missing : List ℕ
  deriving DecidableEq, Repr

structure Evicted where
  transferId : ℕ
  target : ℕ
  reason : String
  deriving DecidableEq, Repr

structure Done where
  transferId : ℕ
  totalBytes : ℕ
  totalBlocks : ℕ
  deriving DecidableEq, Repr

inductive Message where
  | hello (hello : Hello)
  | join (transferId receiverId : ℕ)
  | leave (transferId receiverId : ℕ)
  | stats (stats : Stats)
  | nak (nak : Nak)
  | evicted (evicted : Evicted)
  | done (done : Done)
  deriving DecidableEq, Repr

/-- One erasure-coded shard on the wire. -/
structure Frame where
  slot : ℕ
  sliceParity : ℕ
  transferId : ℕ
  seq : ℕ
  sliceNo : ℕ
  emitFloor : ℕ
  payload : Bytes
  deriving DecidableEq, Repr

inductive Incoming where
  | shard (frame : Frame)
  | control (message : Message)
  deriving DecidableEq, Repr

/-- `proto::Error`: what a message or a shard is refused for. -/
inductive ProtocolError where
  | encode
  | decode
  | frameTooShort (len : ℕ)
  | unknownTag (tag : ℕ)
  | payloadSize (got expected : ℕ)
  | slotOutsideSlice (slot slots : ℕ)
  | parityWiderThanTransfer (named allowed : ℕ)
  | parityOutsideSlice (slot named : ℕ)
  deriving DecidableEq, Repr

/-- An error of the reader or of the output file, by its text. -/
abbrev IoError := String

/-- `ProtoError`: how a transfer can end other than well. -/
inductive ProtoError where
  | file (error : IoError)
  | protocol (error : ProtocolError)
  | fec (error : RsError)
  | egressClosed
  | senderSilent (held : ℕ) (total : Option ℕ)
  | byteCountMismatch (expected received : ℕ)
  | evicted (reason : String)
  | sinkClosed
  | transferIncomplete (complete participants : ℕ)
  | noParticipants
  deriving DecidableEq, Repr

abbrev statsInterval : ℕ := 100 * 10 ^ 6
abbrev renakInterval : ℕ := 2 * statsInterval
abbrev holdoff : ℕ := renakInterval / 10 ^ 6 * 3 / 4 * 10 ^ 6
abbrev silenceTimeout : ℕ := 10 * 10 ^ 9

/-- `MAX_CONTROL_SIZE`: the buffer a control message is encoded into. -/
abbrev maxControlSize : ℕ := 2048

end Scuttlecast
