import Scuttlecast.Receiver.Assembler
import Scuttlecast.Proto.Message

/-! The receiver's session: one turn of its loop is a branch of the `select!`, the arrivals that
came with it, and a hand-over of finished blocks to the sink. Byte and shard counters are
unbounded, and the clock is read where the source reads it. -/
namespace Scuttlecast

/-- Repair requests already sent, by slice, with the time of the last. -/
structure Naks where
  sent : Table ℕ ℕ
  total : ℕ

namespace Naks

def empty : Naks := ⟨∅, 0⟩

def isDue (n : Naks) (sliceNo now : ℕ) : Bool :=
  (n.sent.lookup sliceNo).all fun sent => renakInterval ≤ now - sent

def due (n : Naks) (gaps : List (ℕ × List ℕ)) (now : ℕ) : List (ℕ × List ℕ) × Naks :=
  let due := gaps.filter fun gap => gap.2 ≠ [] ∧ n.isDue gap.1 now
  (due, { sent := due.foldl (fun sent gap => sent.insert gap.1 now) n.sent
          total := n.total + due.length })

def forgetBelow (n : Naks) (nextNeeded : ℕ) : Naks :=
  { n with sent := n.sent.retain fun sliceNo => nextNeeded ≤ sliceNo }

end Naks

structure TransferSummary where
  totalBytes : ℕ
  totalBlocks : ℕ
  received : ℕ
  expected : ℕ
  duplicates : ℕ
  late : ℕ
  naksSent : ℕ
  duration : ℕ
  deriving DecidableEq, Repr

structure Session where
  transferId : ℕ
  receiverId : ℕ
  geometry : Geometry
  assembler : Assembler
  naks : Naks
  pending : List Bytes
  emitFloor : ℕ
  received : ℕ
  highestSeq : Option ℕ
  duplicates : ℕ
  late : ℕ
  totalBytes : Option ℕ
  writtenBytes : ℕ
  blocksWritten : ℕ
  sinkStall : ℕ
  lastHandover : ℕ
  lastPacket : ℕ
  started : ℕ

/-- How a session is over. -/
inductive SessionEnd where
  | returned (result : Except ProtoError TransferSummary)
  | panicked (panic : Panic)

/-- What part of a turn leaves behind: the session, the messages sent to the sender, the blocks
the sink took, and how the session ended if it did. -/
structure Outcome where
  session : Session
  sent : List Message := []
  handed : List Bytes := []
  ended : Option SessionEnd := none

namespace Outcome

def fail (session : Session) (error : ProtoError) : Outcome :=
  { session := session, ended := some (.returned (.error error)) }

def panic (session : Session) (panic : Panic) : Outcome :=
  { session := session, ended := some (.panicked panic) }

/-- Go on with `f` unless the session is over. -/
def andThen (o : Outcome) (f : Session → Outcome) : Outcome :=
  match o.ended with
  | some _ => o
  | none =>
    let next := f o.session
    { next with sent := o.sent ++ next.sent, handed := o.handed ++ next.handed }

end Outcome

/-- What the sink does in one hand-over: it takes `room` blocks, and is then full or closed. -/
structure Sink where
  room : ℕ
  closed : Bool
  deriving DecidableEq, Repr

namespace Session

/-- A session in its first state, around a new assembler. -/
def fresh (hello : Hello) (assembler : Assembler) (receiverId now : ℕ) : Session where
  transferId := hello.transferId
  receiverId := receiverId
  geometry := hello.geometry
  assembler := assembler
  naks := .empty
  pending := []
  emitFloor := 0
  received := 0
  highestSeq := none
  duplicates := 0
  late := 0
  totalBytes := none
  writtenBytes := 0
  blocksWritten := 0
  sinkStall := 0
  lastHandover := now
  lastPacket := now
  started := now

def new (hello : Hello) (receiverId now : ℕ) : Except RsError Session := do
  let assembler ← Assembler.new hello.geometry
  .ok (fresh hello assembler receiverId now)

def checkShard (s : Session) (frame : Frame) : Except Panic (Except ProtocolError Unit) := do
  let slots ← s.assembler.totalSlots
  .ok <|
    if slots ≤ frame.slot then .error (.slotOutsideSlice frame.slot slots)
    else if s.geometry.parityPerSlice < frame.sliceParity then
      .error (.parityWiderThanTransfer frame.sliceParity s.geometry.parityPerSlice)
    else if s.geometry.blocksPerSlice ≤ frame.slot ∧
        frame.sliceParity ≤ frame.slot - s.geometry.blocksPerSlice then
      .error (.parityOutsideSlice frame.slot frame.sliceParity)
    else if frame.payload.length ≠ s.geometry.blockSize then
      .error (.payloadSize frame.payload.length s.geometry.blockSize)
    else .ok ()

def refused (s : Session) (sliceNo : ℕ) : Session :=
  if sliceNo < s.assembler.nextNeeded then { s with late := s.late + 1 }
  else { s with duplicates := s.duplicates + 1 }

/-- The Naks of a list of gaps in order, up to the first that does not fit its buffer. -/
def sendNaks (s : Session) : List (ℕ × List ℕ) → Outcome
  | [] => { session := s }
  | (sliceNo, missing) :: rest =>
    let message : Message := .nak ⟨s.transferId, s.receiverId, sliceNo, missing⟩
    match message.encodeInto maxControlSize with
    | .error e => .fail s (.protocol e)
    | .ok _ => Outcome.andThen { session := s, sent := [message] } fun s => s.sendNaks rest

def requestGaps (s : Session) (now : ℕ) : Outcome :=
  let gaps := s.assembler.gaps s.emitFloor
  let (due, naks) := s.naks.due gaps now
  { s with naks := naks }.sendNaks due

/-- What `on_shard` does with a shard that passed its check. -/
def takeShard (s : Session) (frame : Frame) (now : ℕ) : Outcome :=
  let floorAdvanced := s.emitFloor < frame.emitFloor
  let s := { s with
    received := s.received + 1
    highestSeq := some (max (s.highestSeq.getD 0) frame.seq)
    emitFloor := max s.emitFloor frame.emitFloor }
  match s.assembler.insert frame.sliceNo frame.slot frame.sliceParity frame.payload with
  | .error p => .panic s p
  | .ok (taken, assembler) =>
    let s := { s with assembler := assembler }
    let s := if taken then s else s.refused frame.sliceNo
    if floorAdvanced then s.requestGaps now else { session := s }

def onShard (s : Session) (frame : Frame) (now : ℕ) : Outcome :=
  match s.checkShard frame with
  | .error p => .panic s p
  | .ok (.error e) => .fail s (.protocol e)
  | .ok (.ok ()) => s.takeShard frame now

def onDone (s : Session) (done : Done) (now : ℕ) : Outcome :=
  { s with totalBytes := some done.totalBytes
           assembler := s.assembler.onDone done.totalBlocks }.requestGaps now

def onArrival (s : Session) (now : ℕ) : Incoming → Outcome
  | .shard frame => s.onShard frame now
  | .control (.done done) => s.onDone done now
  | .control (.hello _) =>
    if s.received = 0 then { session := s, sent := [.join s.transferId s.receiverId] }
    else { session := s }
  | .control (.evicted evicted) =>
    if evicted.target = s.receiverId then .fail s (.evicted evicted.reason) else { session := s }
  | .control _ => { session := s }

/-- Each arrival with the time it is looked at. -/
def onArrivals (s : Session) : List (ℕ × Incoming) → Outcome
  | [] => { session := s }
  | (now, arrival) :: rest => (s.onArrival now arrival).andThen fun s => s.onArrivals rest

def withinTotal (s : Session) (block : Bytes) : Bytes × Session :=
  let block := match s.totalBytes with
    | some totalBytes => block.take (totalBytes - s.writtenBytes)
    | none => block
  (block, { s with writtenBytes := s.writtenBytes + block.length })

/-- The released blocks, cut to the total, join those that wait for the sink. -/
def queueReady (s : Session) : List Bytes → Session
  | [] => s
  | block :: rest =>
    let (block, s) := s.withinTotal block
    queueReady (if block = [] then s else { s with pending := s.pending ++ [block] }) rest

/-- `take_ready`, called only when nothing waits for the sink. -/
def refill (rs : ReedSolomon) (s : Session) : Except Panic Session :=
  if s.pending = [] then do
    let (ready, assembler) ← s.assembler.takeReady rs
    .ok ({ s with assembler := assembler }.queueReady ready)
  else .ok s

def handOver (rs : ReedSolomon) (s : Session) (sink : Sink) (now : ℕ) : Outcome :=
  let stall := if s.pending = [] then 0 else now - s.lastHandover
  let s := { s with sinkStall := s.sinkStall + stall, lastHandover := now }
  match s.refill rs with
  | .error p => .panic s p
  | .ok s =>
    let handed := s.pending.take sink.room
    let left := s.pending.drop sink.room
    let s := { s with pending := left, blocksWritten := s.blocksWritten + handed.length }
    if left ≠ [] ∧ sink.closed then
      { session := { s with pending := left.tail }, handed := handed
        ended := some (.returned (.error .sinkClosed)) }
    else
      { session := { s with naks := s.naks.forgetBelow s.assembler.nextNeeded }
        handed := handed }

def sendStats (s : Session) : Outcome :=
  { session := { s with sinkStall := 0 }
    sent := [.stats
      { transferId := s.transferId
        receiverId := s.receiverId
        totalReceived := s.received
        totalExpected := s.highestSeq.elim 0 (· + 1)
        nextNeededSlice := s.assembler.nextNeeded
        sinkStallMs := min (s.sinkStall / 10 ^ 6) (2 ^ 32 - 1) }] }

def wentSilent (s : Session) : ProtoError :=
  .senderSilent s.assembler.nextNeeded s.assembler.totalSlices

def checkByteTotal (s : Session) : Except ProtoError Unit :=
  match s.totalBytes with
  | some expected =>
    if expected ≠ s.writtenBytes then .error (.byteCountMismatch expected s.writtenBytes)
    else .ok ()
  | none => .ok ()

def summary (s : Session) (now : ℕ) : TransferSummary where
  totalBytes := s.writtenBytes
  totalBlocks := s.blocksWritten
  received := s.received
  expected := s.highestSeq.elim 0 (· + 1)
  duplicates := s.duplicates
  late := s.late
  naksSent := s.naks.total
  duration := now - s.started

/-- The guard of the loop in `run`. -/
def Running (s : Session) : Prop := ¬ s.assembler.isFinished ∨ s.pending ≠ []

instance (s : Session) : Decidable s.Running := by
  unfold Running
  infer_instance

/-- What `run` does once its loop is over. -/
def conclude (s : Session) (now : ℕ) : Outcome :=
  match s.checkByteTotal with
  | .error e => .fail s e
  | .ok () => s.sendStats.andThen fun s =>
    { session := s
      sent := [.leave s.transferId s.receiverId]
      ended := some (.returned (.ok (s.summary now))) }

/-- The branches of the `select!`, with what arrived and the clock. -/
inductive Branch where
  | packets (arrivals : List (ℕ × Incoming))
  | sinkReady
  | statsTick
  | renakTick
  | silence
  deriving DecidableEq, Repr

/-- The branch is enabled in the session. -/
def Enabled (s : Session) (now : ℕ) : Branch → Prop
  | .sinkReady => s.pending ≠ []
  | .silence => ¬ s.assembler.isFinished ∧ s.lastPacket + silenceTimeout ≤ now
  | _ => True

instance (s : Session) (now : ℕ) (b : Branch) : Decidable (s.Enabled now b) := by
  cases b <;> unfold Enabled <;> infer_instance

def branch (s : Session) (now : ℕ) : Branch → Outcome
  | .packets arrivals => { s with lastPacket := now }.onArrivals arrivals
  | .sinkReady => { session := s }
  | .statsTick => s.sendStats
  | .renakTick => s.requestGaps now
  | .silence => .fail s s.wentSilent

/-- One turn of the loop in `run`, and what follows the loop when its guard fails. -/
def turn (rs : ReedSolomon) (s : Session) (now : ℕ) (b : Branch) (sink : Sink) : Outcome :=
  ((s.branch now b).andThen fun s => s.handOver rs sink now).andThen fun s =>
    if s.Running then { session := s } else s.conclude now

end Session
end Scuttlecast
