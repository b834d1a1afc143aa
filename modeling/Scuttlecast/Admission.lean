import Scuttlecast.Deployment

/-! How a transfer comes about. `gather_participants` multicasts its `Hello` and takes in who joins;
`join_session` waits for the first `Hello` there is and answers it, and whoever has joined goes
straight on with its session, while others are still waited for. -/
namespace Scuttlecast

/-- Where a receiver is, from `join_session` on: what it joined is this transfer or another one. A
session may turn out not to be possible, and a task may be over before its loop is. -/
inductive Candidate where
  | listening (deadline : ℕ)
  | timedOut
  | deaf (halt : Halt)
  | elsewhere
  | refused (error : RsError)
  | joined (peer : Peer) (halt : Option Halt)

/-- `join_session` and `Session::new`, once the datagrams have been heard: what becomes of the
receiver, and what it sends to the sender of this transfer; `none` while it listens on. -/
def joinSession (swallows : Incoming → Bool) (transferId r now : ℕ) (heard : List Bytes) :
    Option (Candidate × List Bytes) :=
  match recvControl swallows none heard with
  | .error p => some (.deaf (.panicked p), [])
  | .ok none => none
  | .ok (some (.error e)) => some (.deaf (.protocol e), [])
  | .ok (some (.ok (.hello hello))) =>
    match Sent.datagrams (.control (.join hello.transferId r)) with
    | .error halt => some (.deaf halt, [])
    | .ok datagrams =>
      if hello.transferId = transferId then
        match Session.new hello r now with
        | .ok session => some (.joined { session := session, sunk := [], ended := none } none, datagrams)
        | .error e => some (.refused e, datagrams)
      else some (.elsewhere, [])
  | .ok (some (.ok _)) => none

/-- What `gather_participants` makes of a control message. -/
def Group.welcome (group : Group) : Message → Group
  | .join _ receiverId => (group.join receiverId).2
  | .leave _ receiverId => (group.leave receiverId).2
  | _ => group

/-- `heard` is all that the sender has taken in, `ended` how `gather_participants` came back. -/
structure Admission where
  group : Group
  heard : List Message
  deadline : ℕ
  ended : Option (Except Halt Unit)
  air : ℕ → List Bytes
  uplink : List Bytes
  candidates : ℕ → Candidate

namespace Admission

/-- Nobody has joined; every receiver waits as long as it is told to. -/
def start (config : Config) (now : ℕ) (deadlines : ℕ → ℕ) : Admission where
  group := .empty
  heard := []
  deadline := now + config.maxWait
  ended := none
  air := fun _ => []
  uplink := []
  candidates := fun r => .listening (deadlines r)

inductive Action where
  | helloTick
  | hear (heard : List Bytes)
  | deadline (now : ℕ)
  | cut (error : IoError)
  | listen (r now : ℕ) (heard : List Bytes)
  | timeOut (r now : ℕ)
  | turn (r now : ℕ) (woken : Woken) (sink : Sink)
  | cutReceiver (r : ℕ) (error : IoError)
  | strayDown (r : ℕ) (datagram : Bytes)
  | strayUp (datagram : Bytes)
  | loseDown (r : ℕ) (datagram : Bytes)
  | loseUp (datagram : Bytes)

/-- The check that every branch but the deadline runs into. -/
def settle (minReceivers : ℕ) (a : Admission) : Admission :=
  if minReceivers ≤ a.group.len then { a with ended := some (.ok ()) } else a

def fail (a : Admission) (halt : Halt) : Admission := { a with ended := some (.error halt) }

def stepHello (config : Config) (minReceivers : ℕ) (a : Admission) : Admission :=
  match Sent.datagrams (.control (.hello config.hello)) with
  | .error halt => a.fail halt
  | .ok datagrams => { a with air := fun r => a.air r ++ datagrams }.settle minReceivers

def stepHear (losing : Losing) (transferId minReceivers : ℕ) (a : Admission) (heard : List Bytes) :
    Option Admission :=
  if heard ⊆ a.uplink then
    match recvControl losing.sender (some transferId) heard with
    | .error p => some (a.fail (.panicked p))
    | .ok none => none
    | .ok (some (.error e)) => some (a.fail (.protocol e))
    | .ok (some (.ok message)) =>
      some ({ a with group := a.group.welcome message
                     heard := a.heard ++ [message] }.settle minReceivers)
  else none

/-- The receiver is somewhere else now, and has sent something. -/
def become (a : Admission) (r : ℕ) (candidate : Candidate) (datagrams : List Bytes) : Admission :=
  { a with uplink := a.uplink ++ datagrams
           candidates := Function.update a.candidates r candidate }

def stepListen (losing : Losing) (transferId : ℕ) (a : Admission) (r now : ℕ) (heard : List Bytes) :
    Option Admission :=
  match a.candidates r with
  | .listening _ =>
    if r < 2 ^ 64 ∧ heard ⊆ a.air r then
      (joinSession (losing.receivers r) transferId r now heard).map fun (candidate, datagrams) =>
        a.become r candidate datagrams
    else none
  | _ => none

def stepTimeOut (a : Admission) (r now : ℕ) : Option Admission :=
  match a.candidates r with
  | .listening deadline => if deadline ≤ now then some (a.become r .timedOut []) else none
  | _ => none

/-- After a turn of a session. -/
def afterTurn (a : Admission) (r : ℕ) (peer : Peer) (o : Outcome) : Admission :=
  if o.session.received < 2 ^ 64 then
    match Sent.all (o.sent.map .control) with
    | .error h => a.become r (.joined peer (some h)) []
    | .ok datagrams => a.become r (.joined
        { session := o.session, sunk := peer.sunk ++ o.handed, ended := o.ended } none) datagrams
  else a.become r (.joined peer (some (.panicked (.overflow 64)))) []

def stepTurn (rs : ReedSolomon) (losing : Losing) (transferId : ℕ) (a : Admission) (r now : ℕ)
    (woken : Woken) (sink : Sink) : Option Admission :=
  match a.candidates r with
  | .joined peer none =>
    if peer.ended.isNone then
      match (⟨transferId, losing.receivers r⟩ : Listener).wake (a.air r) woken with
      | .error h => some (a.become r (.joined peer (some h)) [])
      | .ok none => none
      | .ok (some branch) =>
        if peer.session.Enabled now branch then
          some (a.afterTurn r peer (peer.session.turn rs now branch sink))
        else none
    else none
  | _ => none

/-- The socket of a receiver fails. -/
def stepCut (a : Admission) (r : ℕ) (error : IoError) : Option Admission :=
  match a.candidates r with
  | .listening _ => some (a.become r (.deaf (.socket error)) [])
  | .joined peer none => some (a.become r (.joined peer (some (.socket error))) [])
  | _ => none

/-- Nothing of the transfer can be read from the datagram, nor from as much of it as goes into the
buffer for a control message. -/
def Foreign (transferId : ℕ) (datagram : Bytes) : Prop :=
  Deployment.Stray transferId datagram ∧
    Deployment.Stray transferId (datagram.take maxControlSize)

instance (transferId : ℕ) (datagram : Bytes) : Decidable (Foreign transferId datagram) :=
  inferInstanceAs (Decidable (_ ∧ _))

def next (rs : ReedSolomon) (losing : Losing) (config : Config) (minReceivers : ℕ) :
    Action → Admission → Option Admission
  | .helloTick, a => if a.ended.isNone then some (a.stepHello config minReceivers) else none
  | .hear heard, a =>
    if a.ended.isNone then a.stepHear losing config.transferId minReceivers heard else none
  | .deadline now, a =>
    if a.ended.isNone ∧ a.deadline ≤ now then some { a with ended := some (.ok ()) } else none
  | .cut error, a => if a.ended.isNone then some (a.fail (.socket error)) else none
  | .listen r now heard, a => a.stepListen losing config.transferId r now heard
  | .timeOut r now, a => a.stepTimeOut r now
  | .turn r now woken sink, a => a.stepTurn rs losing config.transferId r now woken sink
  | .cutReceiver r error, a => a.stepCut r error
  | .strayDown r datagram, a =>
    if Foreign config.transferId datagram then
      some { a with air := Function.update a.air r (a.air r ++ [datagram]) }
    else none
  | .strayUp datagram, a =>
    if Deployment.Stray config.transferId (datagram.take maxControlSize) then
      some { a with uplink := a.uplink ++ [datagram] }
    else none
  | .loseDown r datagram, a =>
    some { a with air := Function.update a.air r ((a.air r).erase datagram) }
  | .loseUp datagram, a => some { a with uplink := a.uplink.erase datagram }

/-- All runs of a sender that gathers receivers, from the time when nobody has heard of it. -/
def system (rs : ReedSolomon) (losing : Losing) (config : Config) (minReceivers : ℕ) :
    Labelled.System Admission Action where
  init a := ∃ now deadlines, a = start config now deadlines
  next := next rs losing config minReceivers

end Admission
end Scuttlecast
