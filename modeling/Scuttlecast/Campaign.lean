import Scuttlecast.Admission

/-! A transfer from its first `Hello` on. What is in flight when the group is complete is still in
flight when the first shard is sent, and a receiver that hears a later `Hello` joins in the middle. -/
namespace Scuttlecast

/-- Where a receiver is while the sender sends: still in `join_session`, at its session, or not part
of the transfer at all. -/
inductive Presence where
  | waiting (deadline : ℕ)
  | here
  | away
  deriving DecidableEq, Repr

def Candidate.presence : Candidate → Presence
  | .listening deadline => .waiting deadline
  | .joined .. => .here
  | _ => .away

/-- The receivers go on from where they are, and so does what is in flight. The writers have had
nothing to do so far. -/
def Admission.handOver (a : Admission) (d : Deployment) : Deployment :=
  { d with
    air := a.air
    uplink := a.uplink
    peers := fun r => match a.candidates r with
      | .joined peer _ => peer
      | _ => d.peers r
    halts := fun r => match a.candidates r with
      | .joined _ halt => halt
      | _ => none }

namespace Deployment

/-- The receiver that the action is of. -/
def Action.receiver : Action → Option ℕ
  | .turn r .. | .cutReceiver r _ | .write r _ | .writerFails r .. | .flush r => some r
  | _ => none

end Deployment

/-- The sender is in `gather_participants`, or past it. -/
inductive Campaign where
  | gathering (a : Admission)
  | sending (d : Deployment) (presence : ℕ → Presence)

namespace Campaign

inductive Action where
  | admission (act : Admission.Action)
  | begin (now : ℕ)
  | deployment (act : Deployment.Action)
  | listen (r now : ℕ) (heard : List Bytes)
  | timeOut (r now : ℕ)
  | cutListener (r : ℕ)

/-- The sender has its group, and somebody is in it. -/
def stepBegin (sender : Sender) (reader : Reader) (a : Admission) (now : ℕ) : Option Campaign :=
  match a.ended, Deployment.start sender reader a.heard now with
  | some (.ok ()), .ok d => some (.sending (a.handOver d) fun r => (a.candidates r).presence)
  | _, _ => none

/-- Only who is there can act, and what is foreign is so in any buffer. -/
def stepDeployment (rs : ReedSolomon) (losing : Losing) (sender : Sender) (d : Deployment)
    (presence : ℕ → Presence) (act : Deployment.Action) : Option Campaign :=
  if (∀ r ∈ act.receiver, presence r = .here) ∧ ∀ datagram ∈ act.foreign,
      Deployment.Stray sender.config.transferId (datagram.take maxControlSize) then
    (Deployment.next rs losing sender act d).map fun d => .sending d presence
  else none

/-- `join_session` on what is sent in the middle of a transfer. -/
def stepListen (losing : Losing) (transferId : ℕ) (d : Deployment) (presence : ℕ → Presence)
    (r now : ℕ) (heard : List Bytes) : Option Campaign :=
  match presence r with
  | .waiting _ =>
    if r < 2 ^ 64 ∧ heard ⊆ d.air r then
      (joinSession (losing.receivers r) transferId r now heard).map fun (candidate, datagrams) =>
        .sending
          { d with
            uplink := d.uplink ++ datagrams
            peers := match candidate with
              | .joined peer _ => Function.update d.peers r peer
              | _ => d.peers }
          (Function.update presence r candidate.presence)
    else none
  | _ => none

/-- Who waits in vain is gone. -/
def stepAway (d : Deployment) (presence : ℕ → Presence) (r : ℕ) (due : ℕ → Bool) :
    Option Campaign :=
  match presence r with
  | .waiting deadline =>
    if due deadline then some (.sending d (Function.update presence r .away)) else none
  | _ => none

def next (rs : ReedSolomon) (losing : Losing) (sender : Sender) (reader : Reader)
    (minReceivers : ℕ) : Action → Campaign → Option Campaign
  | .admission act, .gathering a =>
    (Admission.next rs losing sender.config minReceivers act a).map .gathering
  | .begin now, .gathering a => stepBegin sender reader a now
  | .deployment act, .sending d presence => stepDeployment rs losing sender d presence act
  | .listen r now heard, .sending d presence =>
    stepListen losing sender.config.transferId d presence r now heard
  | .timeOut r now, .sending d presence => stepAway d presence r (· ≤ now)
  | .cutListener r, .sending d presence => stepAway d presence r fun _ => true
  | _, _ => none

/-- All runs of a transfer, from the time when nobody has heard of it. -/
def system (rs : ReedSolomon) (losing : Losing) (sender : Sender) (reader : Reader)
    (minReceivers : ℕ) : Labelled.System Campaign Action where
  init c := ∃ now deadlines, c = .gathering (.start sender.config now deadlines)
  next := next rs losing sender reader minReceivers

end Campaign
end Scuttlecast
