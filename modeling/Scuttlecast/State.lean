import Scuttlecast.Format

/-! What a transfer shows of itself, at either end, and the estimate of the time left that is made
of it. -/
namespace Scuttlecast

def bytesLeft (announcedBytes : Option ℕ) (done : ℕ) : Option ℕ := announcedBytes.map (· - done)

structure TransferState where
  transferId : ℕ
  blockSize : ℕ
  blocksPerSecond : ℚ
  blocksSent : ℕ
  slicesEmitted : ℕ
  parityShards : ℕ
  totalBlocks : Option ℕ
  announcedBytes : Option ℕ
  draining : Bool
  elapsed : ℕ
  deriving DecidableEq

namespace TransferState

def default : TransferState := ⟨0, 0, 0, 0, 0, 0, none, none, false, 0⟩

def bytesPerSecond (s : TransferState) : ℚ := s.blocksPerSecond * s.blockSize

def bytesSent (s : TransferState) : Except Panic ℕ := mulChecked 64 s.blocksSent s.blockSize

def eta (s : TransferState) : Except Panic Eta := do
  let bytesSent ← s.bytesSent
  .ok ⟨bytesLeft s.announcedBytes bytesSent, s.bytesPerSecond⟩

end TransferState

structure ReceiveState where
  transferId : ℕ
  announcedBytes : Option ℕ
  receivedBytes : ℕ
  nextNeededSlice : ℕ
  duplicates : ℕ
  naks : ℕ
  bytesPerSecond : ℚ
  elapsed : ℕ
  deriving DecidableEq

namespace ReceiveState

def default : ReceiveState := ⟨0, none, 0, 0, 0, 0, 0, 0⟩

def eta (s : ReceiveState) : Eta := ⟨bytesLeft s.announcedBytes s.receivedBytes, s.bytesPerSecond⟩

end ReceiveState

end Scuttlecast
