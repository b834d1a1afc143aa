import Scuttlecast.Sender.Window
import Scuttlecast.Sender.Blocks

/-! The slicer task: it reads blocks while the window has room, answers the send loop's
feedback, and passes shards to the outbound channel. A handler works on the slicer's own state
only, so its messages are computed when it starts and then wait in `todo`, one await at a time,
for room in the channel. -/
namespace Scuttlecast

inductive Outbound where
  | shard (sliceNo slot sliceParity emitFloor : ℕ) (payload : Bytes)
  | eof (totalBytes totalBlocks : ℕ)
  deriving DecidableEq, Repr

inductive Feedback where
  | needed (firstNeeded : ℕ)
  | cover (parity : ℕ)
  | resend (sliceNo : ℕ) (blocks : List ℕ)
  | done
  deriving DecidableEq, Repr

structure Slicer where
  window : Window
  emitFloor : ℕ
  totalBytes : ℕ
  totalBlocks : ℕ
  deriving DecidableEq, Repr

namespace Slicer

def new (g : Geometry) : Except RsError Slicer := do
  .ok { window := ← Window.new g, emitFloor := 0, totalBytes := 0, totalBlocks := 0 }

def padded (g : Geometry) (block : Bytes) : Bytes :=
  if block.length = g.blockSize then block
  else block ++ List.replicate (g.blockSize - block.length) 0

/-- The parity shards of a sealed slice, from parity index `index` on. -/
def parityShards (g : Geometry) (sliceNo sliceParity emitFloor : ℕ) :
    ℕ → List Bytes → Except Panic (List Outbound)
  | _, [] => .ok []
  | index, payload :: rest => do
    let slot ← addChecked 16 g.blocksPerSlice (index % 2 ^ 16)
    let shards ← parityShards g sliceNo sliceParity emitFloor (index + 1) rest
    .ok (.shard sliceNo slot sliceParity emitFloor payload :: shards)

def queueParity (s : Slicer) (sealedSlice : Window.Sealed) :
    Except Panic (Slicer × List Outbound) := do
  let sliceParity := sealedSlice.parity.length % 2 ^ 8
  let shards ← parityShards s.window.geometry sealedSlice.sliceNo sliceParity s.emitFloor 0
    sealedSlice.parity
  let emitFloor ← addChecked 32 sealedSlice.sliceNo 1
  .ok ({ s with emitFloor := emitFloor }, shards)

/-- `queue_parity` when a slice was sealed. -/
def queueSealed (s : Slicer) : Option Window.Sealed → Except Panic (Slicer × List Outbound)
  | some sealedSlice => s.queueParity sealedSlice
  | none => .ok (s, [])

def push (rs : ReedSolomon) (s : Slicer) (block : Bytes) :
    Except Panic (Slicer × List Outbound) := do
  let totalBytes ← addChecked 64 s.totalBytes block.length
  let totalBlocks ← addChecked 64 s.totalBlocks 1
  let payload := padded s.window.geometry block
  let sliceParity := s.window.currentParity
  let (pushed, window) ← s.window.push rs payload
  let shard := .shard pushed.sliceNo pushed.blockInSlice sliceParity s.emitFloor payload
  let (s, shards) ← queueSealed
    { s with window := window, totalBytes := totalBytes, totalBlocks := totalBlocks }
    pushed.sealedSlice
  .ok (s, shard :: shards)

/-- The `None` branch of `run`: the input has ended. -/
def endInput (rs : ReedSolomon) (s : Slicer) : Except Panic (Slicer × List Outbound) := do
  let (sealedSlice, window) ← s.window.sealSlice rs
  let (s, shards) ← queueSealed { s with window := window } sealedSlice
  .ok (s, shards ++ [.eof s.totalBytes s.totalBlocks])

def resend (s : Slicer) (sliceNo : ℕ) (slots : List ℕ) : List Outbound :=
  match s.window.sliceParity sliceNo with
  | none => []
  | some sliceParity => slots.filterMap fun slot =>
    (s.window.shard sliceNo slot).map (.shard sliceNo slot sliceParity s.emitFloor)

end Slicer

/-- How the slicer task is over. -/
inductive SlicerEnd where
  | returned (result : Except ProtoError Unit)
  | panicked (panic : Panic)

/-- `Slicer::run`: the slicer with what its stream has yet to yield, the messages the current
handler has yet to send, and how the task ended. -/
structure SlicerTask where
  slicer : Slicer
  input : List (Except IoError Bytes)
  drained : Bool
  todo : List Outbound
  ended : Option SlicerEnd

namespace SlicerTask

/-- The task is at its `select!`. -/
def AtSelect (t : SlicerTask) : Prop := t.ended.isNone ∧ t.todo = []

instance (t : SlicerTask) : Decidable t.AtSelect := by
  unfold AtSelect
  infer_instance

/-- The handler whose result this is has started. -/
def begin (t : SlicerTask) : Except Panic (Slicer × List Outbound) → SlicerTask
  | .ok (s, messages) => { t with slicer := s, todo := messages }
  | .error p => { t with ended := some (.panicked p) }

/-- The `input.next()` branch, taken only while the window has room. -/
def read (rs : ReedSolomon) (t : SlicerTask) : Option SlicerTask :=
  if t.AtSelect ∧ ¬ t.drained ∧ ¬ t.slicer.window.isFull then
    match t.input with
    | .ok block :: input => some ({ t with input := input }.begin (t.slicer.push rs block))
    | .error e :: input =>
      some { t with input := input, ended := some (.returned (.error (.file e))) }
    | [] => some ({ t with drained := true }.begin (t.slicer.endInput rs))
  else none

/-- The `feedback.recv()` branch on a message. -/
def recv (t : SlicerTask) : Feedback → SlicerTask
  | .needed firstNeeded =>
    { t with slicer := { t.slicer with window := t.slicer.window.retainFrom firstNeeded } }
  | .cover parity =>
    { t with slicer := { t.slicer with window := t.slicer.window.cover parity } }
  | .resend sliceNo blocks => { t with todo := t.slicer.resend sliceNo blocks }
  | .done => { t with ended := some (.returned (.ok ())) }

end SlicerTask
end Scuttlecast
