import Scuttlecast.Library.Labelled
import Scuttlecast.Sender.Loop
import Scuttlecast.Receiver.Session

/-! The composed system: the slicer task and the send loop with the channels between them, any
number of receivers, and a network that loses, duplicates, delays and reorders. -/
namespace Scuttlecast

/-- `OUTBOUND_CAPACITY` -/
abbrev outboundCapacity : ℕ := 4096

/-- A receiver: its session, what its sink has taken, and how the session ended. -/
structure Peer where
  session : Session
  sunk : List Bytes
  ended : Option SessionEnd

/-- `emitted` is the history of the outbound channel. A message stays in flight (`air` for each
receiver, `uplink` for the sender) until it is lost, so it may be delivered any number of times. -/
structure World where
  task : SlicerTask
  outbound : List Outbound
  emitted : List Outbound
  feedback : List Feedback
  loop : SendLoop
  air : ℕ → List Incoming
  uplink : List Message
  peers : ℕ → Peer

namespace World

/-- The system once `send_stream` has gathered its group and every receiver has its session. -/
def start (config : Config) (reader : Reader) (gathered : List Message) (now : ℕ) :
    Except ProtoError World :=
  let group := SendLoop.gather gathered
  if group.len = 0 then .error .noParticipants
  else match Slicer.new config.geometry, Assembler.new config.geometry with
    | .ok slicer, .ok assembler =>
      .ok
        { task :=
            { slicer := slicer, input := reader.items config.geometry, drained := false
              todo := [], ended := none }
          outbound := []
          emitted := []
          feedback := []
          loop := .new config group now
          air := fun _ => []
          uplink := []
          peers := fun r =>
            { session := .fresh config.hello assembler r now, sunk := [], ended := none } }
    | .error e, _ => .error (.fec e)
    | _, .error e => .error (.fec e)

inductive Action where
  | read
  | feedback
  | queue
  | egress (now : ℕ)
  | egressClosed
  | tick (now : ℕ) (idle : Bool) (wanted : ℕ)
  | deadline (now : ℕ)
  | control (now : ℕ) (message : Message)
  | turn (r now : ℕ) (branch : Session.Branch) (sink : Sink)
  | loseDown (r : ℕ) (arrival : Incoming)
  | loseUp (message : Message)
  deriving DecidableEq, Repr

/-- The world after a branch of the send loop. -/
def afterLoop (w : World) (o : LoopOutcome) : World :=
  let o := o.settle
  { w with loop := o.loop
           feedback := w.feedback ++ o.feedback
           air := fun r => w.air r ++ o.multicast }

/-- The world after a turn of a receiver. -/
def afterTurn (w : World) (r : ℕ) (o : Outcome) : World :=
  { w with uplink := w.uplink ++ o.sent
           peers := Function.update w.peers r
             { session := o.session, sunk := (w.peers r).sunk ++ o.handed, ended := o.ended } }

theorem peers_afterTurn_self (w : World) (r : ℕ) (o : Outcome) : (w.afterTurn r o).peers r =
    { session := o.session, sunk := (w.peers r).sunk ++ o.handed, ended := o.ended } :=
  Function.update_self ..

theorem peers_afterTurn_of_ne (w : World) {r r' : ℕ} (h : r' ≠ r) (o : Outcome) :
    (w.afterTurn r o).peers r' = w.peers r' := Function.update_of_ne h ..

/-- A turn is the business of its receiver alone. -/
theorem forall_peers_afterTurn {w : World} {r : ℕ} {o : Outcome} {P : ℕ → Peer → Prop}
    (hself : P r { session := o.session, sunk := (w.peers r).sunk ++ o.handed, ended := o.ended })
    (hother : ∀ r', r' ≠ r → P r' (w.peers r')) (r' : ℕ) : P r' ((w.afterTurn r o).peers r') := by
  by_cases hr : r' = r
  · rw [hr, peers_afterTurn_self]
    exact hself
  · rw [peers_afterTurn_of_ne w hr]
    exact hother r' hr

/-- What a branch was given has been in flight. -/
def Delivers (w : World) (r : ℕ) : Session.Branch → Prop
  | .packets arrivals => ∀ arrival ∈ arrivals, arrival.2 ∈ w.air r
  | _ => True

instance (w : World) (r : ℕ) (b : Session.Branch) : Decidable (w.Delivers r b) :=
  match b with
  | .packets arrivals => inferInstanceAs (Decidable (∀ arrival ∈ arrivals, arrival.2 ∈ w.air r))
  | .sinkReady | .statsTick | .renakTick | .silence => .isTrue trivial

def stepRead (rs : ReedSolomon) (w : World) : Option World :=
  (w.task.read rs).map fun task => { w with task := task }

def stepFeedback (w : World) : Option World :=
  match w.feedback with
  | [] => none
  | message :: rest =>
    if w.task.AtSelect then some { w with task := w.task.recv message, feedback := rest }
    else none

/-- The slicer's pending `send` finds room in the outbound channel. -/
def stepQueue (w : World) : Option World :=
  match w.task.todo with
  | [] => none
  | message :: rest =>
    if w.task.ended.isNone ∧ w.outbound.length < outboundCapacity then
      some { w with task := { w.task with todo := rest }
                    outbound := w.outbound ++ [message]
                    emitted := w.emitted ++ [message] }
    else none

def stepEgress (w : World) (now : ℕ) : Option World :=
  match w.outbound with
  | [] => none
  | message :: rest =>
    if w.loop.verdict.isNone then
      some ({ w with outbound := rest }.afterLoop (w.loop.egress now message))
    else none

def stepEgressClosed (w : World) : Option World :=
  if w.loop.verdict.isNone ∧ w.outbound = [] ∧ w.task.ended.isSome then
    some (w.afterLoop w.loop.egressClosed)
  else none

def stepTick (w : World) (now : ℕ) (idle : Bool) (wanted : ℕ) : Option World :=
  if w.loop.verdict.isNone then some (w.afterLoop (w.loop.tick now idle wanted)) else none

def stepDeadline (w : World) (now : ℕ) : Option World :=
  if w.loop.verdict.isNone ∧ w.loop.drainDeadline.any (· ≤ now) then
    some (w.afterLoop w.loop.deadline)
  else none

def stepControl (w : World) (now : ℕ) (message : Message) : Option World :=
  if w.loop.verdict.isNone ∧ message ∈ w.uplink then
    some (w.afterLoop (w.loop.control now message))
  else none

def stepTurn (rs : ReedSolomon) (w : World) (r now : ℕ) (branch : Session.Branch) (sink : Sink) :
    Option World :=
  if (w.peers r).ended.isNone ∧ (w.peers r).session.Enabled now branch ∧ w.Delivers r branch then
    some (w.afterTurn r ((w.peers r).session.turn rs now branch sink))
  else none

def next (rs : ReedSolomon) : Action → World → Option World
  | .read, w => w.stepRead rs
  | .feedback, w => w.stepFeedback
  | .queue, w => w.stepQueue
  | .egress now, w => w.stepEgress now
  | .egressClosed, w => w.stepEgressClosed
  | .tick now idle wanted, w => w.stepTick now idle wanted
  | .deadline now, w => w.stepDeadline now
  | .control now message, w => w.stepControl now message
  | .turn r now branch sink, w => w.stepTurn rs r now branch sink
  | .loseDown r arrival, w =>
    some { w with air := Function.update w.air r ((w.air r).erase arrival) }
  | .loseUp message, w => some { w with uplink := w.uplink.erase message }

/-- What each action does where it is enabled. -/
inductive Step (rs : ReedSolomon) : Action → World → World → Prop
  | read {w : World} {task : SlicerTask} (h : w.task.read rs = some task) :
      Step rs .read w { w with task := task }
  | feedback {w : World} {message : Feedback} {rest : List Feedback} (hselect : w.task.AtSelect)
      (h : w.feedback = message :: rest) :
      Step rs .feedback w { w with task := w.task.recv message, feedback := rest }
  | queue {w : World} {message : Outbound} {rest : List Outbound} (hrun : w.task.ended.isNone)
      (h : w.task.todo = message :: rest) (hroom : w.outbound.length < outboundCapacity) :
      Step rs .queue w { w with task := { w.task with todo := rest }
                                outbound := w.outbound ++ [message]
                                emitted := w.emitted ++ [message] }
  | egress {w : World} {message : Outbound} {rest : List Outbound} (now : ℕ)
      (hrun : w.loop.verdict.isNone) (h : w.outbound = message :: rest) :
      Step rs (.egress now) w ({ w with outbound := rest }.afterLoop (w.loop.egress now message))
  | egressClosed {w : World} (hrun : w.loop.verdict.isNone) (hempty : w.outbound = [])
      (hended : w.task.ended.isSome) : Step rs .egressClosed w (w.afterLoop w.loop.egressClosed)
  | tick {w : World} (now : ℕ) (idle : Bool) (wanted : ℕ) (hrun : w.loop.verdict.isNone) :
      Step rs (.tick now idle wanted) w (w.afterLoop (w.loop.tick now idle wanted))
  | deadline {w : World} (now : ℕ) (hrun : w.loop.verdict.isNone)
      (hdue : w.loop.drainDeadline.any (· ≤ now)) :
      Step rs (.deadline now) w (w.afterLoop w.loop.deadline)
  | control {w : World} (now : ℕ) (message : Message) (hrun : w.loop.verdict.isNone)
      (hmem : message ∈ w.uplink) :
      Step rs (.control now message) w (w.afterLoop (w.loop.control now message))
  | turn {w : World} (r now : ℕ) (branch : Session.Branch) (sink : Sink)
      (hrun : (w.peers r).ended.isNone) (henabled : (w.peers r).session.Enabled now branch)
      (hdelivers : w.Delivers r branch) :
      Step rs (.turn r now branch sink) w
        (w.afterTurn r ((w.peers r).session.turn rs now branch sink))
  | loseDown (w : World) (r : ℕ) (arrival : Incoming) :
      Step rs (.loseDown r arrival) w
        { w with air := Function.update w.air r ((w.air r).erase arrival) }
  | loseUp (w : World) (message : Message) :
      Step rs (.loseUp message) w { w with uplink := w.uplink.erase message }

theorem step_of_next {rs : ReedSolomon} {a : Action} {w w' : World}
    (h : next rs a w = some w') : Step rs a w w' := by
  cases a with
  | read =>
    obtain ⟨task, hread, rfl⟩ := Option.map_eq_some_iff.mp h
    exact .read hread
  | feedback =>
    simp only [next, stepFeedback] at h
    split at h
    · simp at h
    · next heq =>
      split_ifs at h with hselect
      exact Option.some.inj h ▸ .feedback hselect heq
  | queue =>
    simp only [next, stepQueue] at h
    split at h
    · simp at h
    · next heq =>
      split_ifs at h with hguard
      exact Option.some.inj h ▸ .queue hguard.1 heq hguard.2
  | egress now =>
    simp only [next, stepEgress] at h
    split at h
    · simp at h
    · next heq =>
      split_ifs at h with hrun
      exact Option.some.inj h ▸ .egress now hrun heq
  | egressClosed =>
    simp only [next, stepEgressClosed] at h
    split_ifs at h with hguard
    exact Option.some.inj h ▸ .egressClosed hguard.1 hguard.2.1 hguard.2.2
  | tick now idle wanted =>
    simp only [next, stepTick] at h
    split_ifs at h with hrun
    exact Option.some.inj h ▸ .tick now idle wanted hrun
  | deadline now =>
    simp only [next, stepDeadline] at h
    split_ifs at h with hguard
    exact Option.some.inj h ▸ .deadline now hguard.1 hguard.2
  | control now message =>
    simp only [next, stepControl] at h
    split_ifs at h with hguard
    exact Option.some.inj h ▸ .control now message hguard.1 hguard.2
  | turn r now branch sink =>
    simp only [next, stepTurn] at h
    split_ifs at h with hguard
    exact Option.some.inj h ▸ .turn r now branch sink hguard.1 hguard.2.1 hguard.2.2
  | loseDown r arrival => exact Option.some.inj h ▸ .loseDown w r arrival
  | loseUp message => exact Option.some.inj h ▸ .loseUp w message

/-- Loss puts nothing in flight. -/
theorem mem_air_of_lost {w : World} {r r' : ℕ} {arrival i : Incoming}
    (h : i ∈ Function.update w.air r ((w.air r).erase arrival) r') : i ∈ w.air r' := by
  by_cases hr : r' = r
  · subst hr
    rw [Function.update_self] at h
    exact List.mem_of_mem_erase h
  · rwa [Function.update_of_ne hr] at h

/-- What the transfer starts from. -/
theorem start_eq_ok {config : Config} {reader : Reader} {gathered : List Message} {now : ℕ}
    {w : World} (h : start config reader gathered now = .ok w) :
    (SendLoop.gather gathered).len ≠ 0 ∧ ∃ slicer assembler,
      Slicer.new config.geometry = .ok slicer ∧ Assembler.new config.geometry = .ok assembler ∧
      w =
        { task :=
            { slicer := slicer, input := reader.items config.geometry, drained := false
              todo := [], ended := none }
          outbound := []
          emitted := []
          feedback := []
          loop := .new config (SendLoop.gather gathered) now
          air := fun _ => []
          uplink := []
          peers := fun r =>
            { session := .fresh config.hello assembler r now, sunk := [], ended := none } } := by
  unfold start at h
  dsimp only at h
  split_ifs at h with hlen
  split at h
  · next slicer assembler hs ha =>
    exact ⟨hlen, slicer, assembler, hs, ha, (Except.ok.inj h).symm⟩
  · simp at h
  · simp at h

/-- All runs of a transfer of the reader's input with this configuration. -/
def system (rs : ReedSolomon) (config : Config) (reader : Reader) :
    Labelled.System World Action where
  init w := ∃ gathered now, start config reader gathered now = .ok w
  next := next rs

end World

/-- A transfer small enough to follow by hand: blocks of two bytes, one block a slice, no parity. -/
def Config.tiny (maxLiveSlices : ℕ)
    (h : 0 < maxLiveSlices ∧ maxLiveSlices < 2 ^ 16 := by decide) : Config where
  transferId := 7
  announcedBytes := none
  geometry := .of 2 1 0 maxLiveSlices
    ⟨by decide, by decide, by decide, by decide, by decide, h.1, h.2⟩
  maxWait := 10

/-- An input that comes in one read. -/
def Reader.single (bytes : Bytes) (h : bytes ≠ [] := by decide) : Reader :=
  ⟨[bytes], by simpa using h, none⟩

/-- One byte makes one block, not padded yet. -/
theorem Reader.items_byte (maxLiveSlices : ℕ) (h : 0 < maxLiveSlices ∧ maxLiveSlices < 2 ^ 16) :
    (Reader.single [1]).items (Config.tiny maxLiveSlices h).geometry = [.ok [1]] := by
  have hblocks : (Chunks.chunks 2 [1]).map .ok = ([.ok [1]] : List (Except IoError Bytes)) := rfl
  rw [Reader.items_eq]
  exact hblocks

end Scuttlecast
