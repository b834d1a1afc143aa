import Scuttlecast.Listening
import Scuttlecast.Readable
import Scuttlecast.SendStream
import Scuttlecast.Library.Simulation

/-! The transfer as it is deployed: `send_stream` with its batches and its pacer, datagrams on the
wire, reads that the kernel glues together, other traffic on the same ports, and `recv_to` with the
channel, the pump and the writer behind each session. -/
namespace Scuttlecast

/-- Why a task is over before its loop is: it got a datagram that nothing can be made of, or had a
message without room; it panicked; or its socket failed. -/
inductive Halt where
  | protocol (error : ProtocolError)
  | panicked (panic : Panic)
  | socket (error : IoError)
  deriving DecidableEq, Repr

/-- The datagrams that `send_batch` or `send_control` puts on the wire. The kernel takes the size of
a segment as a `u16`, and sends nothing longer. -/
def Sent.datagrams : Sent → Except Halt (List Bytes)
  | .batch body segmentSize =>
    if segmentSize < 2 ^ 16 then .ok (Chunks.chunks segmentSize body)
    else .error (.socket "Message too long")
  | .control message =>
    match message.encode with
    | .ok bytes => .ok [bytes]
    | .error e => .error (.protocol e)

/-- What goes out of a list of messages; what went out before one that does not is as good as
lost. -/
def Sent.all : List Sent → Except Halt (List Bytes)
  | [] => .ok []
  | sent :: rest => do
    let first ← sent.datagrams
    let others ← Sent.all rest
    .ok (first ++ others)

/-- `pump`, with the channel it drains and what its writer has taken. The writer keeps bytes back as
it pleases, up to the flush. -/
structure Pump where
  blocks : List Bytes
  buffer : Bytes
  written : Bytes
  result : Option (Except IoError Unit)

namespace Pump

def empty : Pump := ⟨[], [], [], none⟩

/-- The next block off the channel, if any, behind what is kept back. -/
def held (p : Pump) : Bytes := p.buffer ++ p.blocks.headD []

/-- `write_all` of a block: the writer has taken `n` bytes more once it is through. -/
def write (p : Pump) (n : ℕ) : Option Pump :=
  if p.result.isNone ∧ p.blocks ≠ [] then
    some { p with
      blocks := p.blocks.tail
      buffer := p.held.drop n
      written := p.written ++ p.held.take n }
  else none

/-- The writer fails on a block, or in the flush, after `n` bytes. -/
def fail (p : Pump) (error : IoError) (n : ℕ) : Option Pump :=
  if p.result.isNone then
    some { p with written := p.written ++ p.held.take n, result := some (.error error) }
  else none

/-- The channel is drained and closed, and the flush goes well. -/
def finish (p : Pump) : Option Pump :=
  if p.result.isNone ∧ p.blocks = [] then
    some { p with buffer := [], written := p.written ++ p.buffer, result := some (.ok ()) }
  else none

/-- The session hands blocks over. -/
def queue (p : Pump) (handed : List Bytes) : Pump := { p with blocks := p.blocks ++ handed }

end Pump

/-- What a receiver's task wakes up for: reads of the socket, with the times at which each arrival
is looked at, or another branch of its `select!`. -/
inductive Woken where
  | reads (reads : List Read) (times : List ℕ)
  | sinkReady
  | statsTick
  | renakTick
  | silence
  deriving DecidableEq, Repr

/-- The branch that a task wakes up in whose socket has these datagrams to read; `none` while it
sleeps on. -/
def Listener.wake (l : Listener) (air : List Bytes) : Woken → Except Halt (Option Session.Branch)
  | .reads reads times =>
    if ∀ read ∈ reads, read.Glued ∧ ∀ datagram ∈ read.datagrams, datagram ∈ air then
      match l.recvBatch (reads.map Read.received) [] with
      | .error p => .error (.panicked p)
      | .ok none => .ok none
      | .ok (some (.error e)) => .error (.protocol e)
      | .ok (some (.ok arrivals)) =>
        .ok (if times.length = arrivals.length then some (.packets (times.zip arrivals)) else none)
    else .ok none
  | .sinkReady => .ok (some .sinkReady)
  | .statsTick => .ok (some .statsTick)
  | .renakTick => .ok (some .renakTick)
  | .silence => .ok (some .silence)

/-- A datagram stays in flight (`air` for each receiver, `uplink` for the sender) until it is lost.
`halted` and `halts` tell who is over before its loop is. -/
structure Deployment where
  task : SlicerTask
  outbound : List Outbound
  feedback : List Feedback
  sender : SendStream
  halted : Option Halt
  air : ℕ → List Bytes
  uplink : List Bytes
  peers : ℕ → Peer
  halts : ℕ → Option Halt
  pumps : ℕ → Pump

/-- The rules by which the sender's socket and the receivers' drop what they get. -/
structure Losing where
  sender : Incoming → Bool
  receivers : ℕ → Incoming → Bool

namespace Deployment

/-- The deployment once `send_stream` has gathered its group and every receiver has its session. -/
def start (sender : Sender) (reader : Reader) (gathered : List Message) (now : ℕ) :
    Except ProtoError Deployment := do
  let w ← World.start sender.config reader gathered now
  .ok
    { task := w.task
      outbound := []
      feedback := []
      sender := .start sender (SendLoop.gather gathered) now
      halted := none
      air := fun _ => []
      uplink := []
      peers := w.peers
      halts := fun _ => none
      pumps := fun _ => .empty }

inductive Action where
  | read
  | feedback
  | queue
  | round (r : Round) (heard : List Bytes)
  | refused (heard : List Bytes)
  | cut (error : IoError)
  | turn (r now : ℕ) (woken : Woken) (sink : Sink)
  | cutReceiver (r : ℕ) (error : IoError)
  | write (r n : ℕ)
  | writerFails (r : ℕ) (error : IoError) (n : ℕ)
  | flush (r : ℕ)
  | strayDown (r : ℕ) (datagram : Bytes)
  | strayUp (datagram : Bytes)
  | loseDown (r : ℕ) (datagram : Bytes)
  | loseUp (datagram : Bytes)

/-- What traffic that is not of the transfer brings, as far as it is read. -/
def Action.foreign : Action → Option Bytes
  | .strayDown _ datagram => some datagram
  | .strayUp datagram => some (datagram.take maxControlSize)
  | _ => none

/-- Nothing of the transfer can be read from the datagram; it may well be that nothing at all can. -/
def Stray (transferId : ℕ) (datagram : Bytes) : Prop :=
  ∀ incoming, classify datagram = .ok (.ok incoming) → incoming.belongsTo transferId = false

instance (transferId : ℕ) (datagram : Bytes) : Decidable (Stray transferId datagram) :=
  match h : classify datagram with
  | .ok (.ok incoming) => decidable_of_iff (incoming.belongsTo transferId = false) (by simp [Stray, h])
  | .ok (.error e) => .isTrue (by simp [Stray, h])
  | .error p => .isTrue (by simp [Stray, h])

def stepRead (rs : ReedSolomon) (d : Deployment) : Option Deployment :=
  (d.task.read rs).map fun task => { d with task := task }

def stepFeedback (d : Deployment) : Option Deployment :=
  match d.feedback with
  | [] => none
  | message :: rest =>
    if d.task.AtSelect then some { d with task := d.task.recv message, feedback := rest } else none

def stepQueue (d : Deployment) : Option Deployment :=
  match d.task.todo with
  | [] => none
  | message :: rest =>
    if d.task.ended.isNone ∧ d.outbound.length < outboundCapacity then
      some { d with task := { d.task with todo := rest }, outbound := d.outbound ++ [message] }
    else none

/-- The round takes what there is: the front of the queue, or its end once the slicer is over, or
what the socket hears. -/
def Offers (losing : Losing) (transferId : ℕ) (d : Deployment) (r : Round) (heard : List Bytes) :
    Prop :=
  match r.select with
  | .taken _ queued left => queued <+: d.outbound ∧ (d.outbound.length ≠ queued.length → left = true)
  | .closed => d.outbound = [] ∧ d.task.ended.isSome
  | .control _ message => (∀ datagram ∈ heard, datagram ∈ d.uplink) ∧
      recvControl losing.sender (some transferId) heard = .ok (some (.ok message))
  | _ => True

instance (losing : Losing) (transferId : ℕ) (d : Deployment) (r : Round) (heard : List Bytes) :
    Decidable (d.Offers losing transferId r heard) :=
  match h : r.select with
  | .taken _ queued left => decidable_of_iff (queued <+: d.outbound ∧
      (d.outbound.length ≠ queued.length → left = true)) (by simp [Offers, h])
  | .closed => decidable_of_iff (d.outbound = [] ∧ d.task.ended.isSome) (by simp [Offers, h])
  | .control _ message => decidable_of_iff ((∀ datagram ∈ heard, datagram ∈ d.uplink) ∧
      recvControl losing.sender (some transferId) heard = .ok (some (.ok message)))
      (by simp [Offers, h])
  | .credit _ | .tick | .deadline => .isTrue (by simp [Offers, h])

/-- What a round takes off the queue. -/
def taken (r : Round) : List Outbound :=
  match r.select with
  | .taken _ queued _ => queued
  | _ => []

/-- A round of `send_stream`: what it sends is on the wire, and what it has for the slicer is
queued. -/
def stepRound (losing : Losing) (sender : Sender) (d : Deployment) (r : Round) (heard : List Bytes) :
    Option Deployment :=
  if d.halted.isNone ∧ d.sender.Enabled r ∧
      d.Offers losing sender.config.transferId r heard then
    match d.sender.turn sender r with
    | .error p => some { d with halted := some (.panicked p) }
    | .ok s =>
      match Sent.all s.egress.sent with
      | .error halt => some { d with halted := some halt }
      | .ok datagrams =>
        some { d with
          sender := { s with egress := { s.egress with sent := [] }, feedback := [] }
          outbound := d.outbound.drop (taken r).length
          feedback := d.feedback ++ s.feedback
          air := fun r => d.air r ++ datagrams }
  else none

/-- The sender's socket hears something that nothing can be made of. -/
def stepRefused (losing : Losing) (sender : Sender) (d : Deployment) (heard : List Bytes) :
    Option Deployment :=
  if d.halted.isNone ∧ ∀ datagram ∈ heard, datagram ∈ d.uplink then
    match recvControl losing.sender (some sender.config.transferId) heard with
    | .error p => some { d with halted := some (.panicked p) }
    | .ok (some (.error e)) => some { d with halted := some (.protocol e) }
    | .ok _ => none
  else none

/-- The branch a receiver's task wakes up in; `none` while it sleeps on. -/
def wake (losing : Losing) (transferId : ℕ) (d : Deployment) (r : ℕ) (woken : Woken) :
    Except Halt (Option Session.Branch) :=
  (⟨transferId, losing.receivers r⟩ : Listener).wake (d.air r) woken

def halt (d : Deployment) (r : ℕ) (halt : Halt) : Deployment :=
  { d with halts := Function.update d.halts r (some halt) }

/-- The deployment after a turn of a receiver. -/
def afterTurn (d : Deployment) (r : ℕ) (o : Outcome) : Deployment :=
  if o.session.received < 2 ^ 64 then
    match Sent.all (o.sent.map .control) with
    | .error h => d.halt r h
    | .ok datagrams =>
      { d with
        uplink := d.uplink ++ datagrams
        peers := Function.update d.peers r
          { session := o.session, sunk := (d.peers r).sunk ++ o.handed, ended := o.ended }
        pumps := Function.update d.pumps r ((d.pumps r).queue o.handed) }
  else d.halt r (.panicked (.overflow 64))

/-- A turn of a receiver. The pump runs beside it: how many blocks a hand-over gets rid of is open,
and so is whether it finds the channel closed, unless the pump was gone before. -/
def stepTurn (rs : ReedSolomon) (losing : Losing) (transferId : ℕ) (d : Deployment) (r now : ℕ)
    (woken : Woken) (sink : Sink) : Option Deployment :=
  if r < 2 ^ 64 ∧ (d.halts r).isNone ∧ (d.peers r).ended.isNone ∧
      ((d.pumps r).result.isSome → sink = ⟨0, true⟩) then
    match d.wake losing transferId r woken with
    | .error h => some (d.halt r h)
    | .ok none => none
    | .ok (some branch) =>
      if (d.peers r).session.Enabled now branch then
        some (d.afterTurn r ((d.peers r).session.turn rs now branch sink))
      else none
  else none

/-- The receiver's session is over, and its end of the channel gone. -/
def Over (d : Deployment) (r : ℕ) : Prop := (d.peers r).ended.isSome ∨ (d.halts r).isSome

instance (d : Deployment) (r : ℕ) : Decidable (d.Over r) :=
  inferInstanceAs (Decidable ((d.peers r).ended.isSome ∨ (d.halts r).isSome))

/-- What the pump of a receiver does. -/
def stepPump (d : Deployment) (r : ℕ) (pump : Option Pump) : Option Deployment :=
  pump.map fun pump => { d with pumps := Function.update d.pumps r pump }

def next (rs : ReedSolomon) (losing : Losing) (sender : Sender) : Action → Deployment →
    Option Deployment
  | .read, d => d.stepRead rs
  | .feedback, d => d.stepFeedback
  | .queue, d => d.stepQueue
  | .round r heard, d => d.stepRound losing sender r heard
  | .refused heard, d => d.stepRefused losing sender heard
  | .cut error, d => if d.halted.isNone then some { d with halted := some (.socket error) } else none
  | .turn r now woken sink, d => d.stepTurn rs losing sender.config.transferId r now woken sink
  | .cutReceiver r error, d => if (d.halts r).isNone then some (d.halt r (.socket error)) else none
  | .write r n, d => d.stepPump r ((d.pumps r).write n)
  | .writerFails r error n, d => d.stepPump r ((d.pumps r).fail error n)
  | .flush r, d => if d.Over r then d.stepPump r (d.pumps r).finish else none
  | .strayDown r datagram, d =>
    if Stray sender.config.transferId datagram then
      some { d with air := Function.update d.air r (d.air r ++ [datagram]) }
    else none
  | .strayUp datagram, d =>
    if Stray sender.config.transferId (datagram.take maxControlSize) then
      some { d with uplink := d.uplink ++ [datagram] }
    else none
  | .loseDown r datagram, d =>
    some { d with air := Function.update d.air r ((d.air r).erase datagram) }
  | .loseUp datagram, d => some { d with uplink := d.uplink.erase datagram }

/-- All runs of a transfer of the reader's input by this sender, as it is deployed. -/
def system (rs : ReedSolomon) (losing : Losing) (sender : Sender) (reader : Reader) :
    Labelled.System Deployment Action where
  init d := ∃ gathered now, (∀ m ∈ gathered, m.InRange) ∧
    start sender reader gathered now = .ok d
  next := next rs losing sender

/-- What `recv_to` returns, once it does: a summary, or some error. -/
def recvTo (d : Deployment) (r : ℕ) : Option (Option TransferSummary) :=
  match (d.pumps r).result with
  | none => none
  | some (.error _) => some none
  | some (.ok ()) =>
    match d.halts r, (d.peers r).ended with
    | none, none => none
    | none, some (.returned (.ok summary)) => some (some summary)
    | _, _ => some none

end Deployment

/-- Sockets that drop nothing. -/
def Losing.none : Losing := ⟨fun _ => false, fun _ _ => false⟩

/-- The smallest of transfers, in batches of up to four shards and without a maximum rate. -/
def Sender.tiny : Sender := ⟨.tiny 2, 4, Option.none⟩

end Scuttlecast
