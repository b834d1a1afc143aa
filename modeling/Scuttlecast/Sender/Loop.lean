import Scuttlecast.Sender.Group
import Scuttlecast.Sender.Slicer

/-! The send loop, one branch of its `select!` at a time. What the pacer and the rate controller
decide (when a shard may leave, and which parity width a tick wants) is left to the caller. -/
namespace Scuttlecast

/-- The fields of `Sender` and the arguments of `send_stream` that the loop reads. -/
structure Config where
  transferId : ℕ
  announcedBytes : Option ℕ
  geometry : Geometry
  maxWait : ℕ

def Config.hello (c : Config) : Hello := ⟨c.transferId, c.geometry, c.announcedBytes⟩

structure SendLoop where
  config : Config
  group : Group
  participantsAtStart : ℕ
  seq : ℕ
  totalBytes : ℕ
  totalBlocks : ℕ
  draining : Bool
  covering : ℕ
  drainDeadline : Option ℕ
  verdict : Option (Except ProtoError Unit)

/-- What a branch leaves behind: the loop, what was sent to the group, and the feedback queued. -/
structure LoopOutcome where
  loop : SendLoop
  multicast : List Incoming := []
  feedback : List Feedback := []

namespace SendLoop

/-- The group as `gather_participants` builds it from the control messages it reads. -/
def gather (messages : List Message) : Group :=
  messages.foldl (fun group message =>
    match message with
    | .join _ receiverId => (group.join receiverId).2
    | .leave _ receiverId => (group.leave receiverId).2
    | _ => group) .empty

def new (config : Config) (group : Group) (now : ℕ) : SendLoop where
  config := config
  group := group.markAllSeen now
  participantsAtStart := group.len
  seq := 0
  totalBytes := 0
  totalBlocks := 0
  draining := false
  covering := config.geometry.parityPerSlice
  drainDeadline := none
  verdict := none

def doneMessage (s : SendLoop) : Incoming :=
  .control (.done ⟨s.config.transferId, s.totalBytes, s.totalBlocks⟩)

/-- The checks at the top of the loop. -/
def checkTop (s : SendLoop) : SendLoop :=
  if s.group.len = 0 then { s with verdict := some (.error .noParticipants) }
  else if s.draining ∧ s.group.allComplete then { s with verdict := some (.ok ()) }
  else s

/-- One message taken from the outbound channel. -/
def egress (s : SendLoop) (now : ℕ) : Outbound → LoopOutcome
  | .shard sliceNo slot sliceParity emitFloor payload =>
    { loop := { s with seq := (s.seq + 1) % 2 ^ 32, group := s.group.onEmitted emitFloor }
      multicast := [.shard
        { slot := slot
          sliceParity := sliceParity
          transferId := s.config.transferId % 2 ^ 32
          seq := s.seq
          sliceNo := sliceNo
          emitFloor := emitFloor
          payload := payload }] }
  | .eof totalBytes totalBlocks =>
    let totalSlices := Chunks.divCeil totalBlocks s.config.geometry.blocksPerSlice % 2 ^ 32
    let s := { s with
      totalBytes := totalBytes
      totalBlocks := totalBlocks
      group := s.group.onEof totalSlices
      draining := true
      drainDeadline := some (now + s.config.maxWait) }
    { loop := s, multicast := [s.doneMessage] }

/-- `recv_many` finds the channel empty and closed. -/
def egressClosed (s : SendLoop) : LoopOutcome :=
  { loop := { s with verdict := some (.error .egressClosed) } }

def evictedMessage (s : SendLoop) (target stuckAt : ℕ) : Incoming :=
  .control (.evicted ⟨s.config.transferId, target,
    "silent for 10s while stuck at slice " ++ toString stuckAt⟩)

/-- `idle` tells whether no block has been sent since the last tick. -/
def tick (s : SendLoop) (now : ℕ) (idle : Bool) (wanted : ℕ) : LoopOutcome :=
  let (stale, group) := s.group.reapSilent now silenceTimeout
  { loop := { s with group := group, covering := wanted }
    multicast := stale.map (fun e => s.evictedMessage e.1 e.2) ++
      (if s.draining then [s.doneMessage] else []) ++
      (if idle ∧ ¬ s.draining then [.control (.hello s.config.hello)] else [])
    feedback := if wanted ≠ s.covering then [.cover wanted] else [] }

def deadline (s : SendLoop) : LoopOutcome :=
  let error := ProtoError.transferIncomplete s.group.completeCount s.participantsAtStart
  { loop := { s with verdict := some (.error error) } }

def onStats (s : SendLoop) (now : ℕ) (stats : Stats) : LoopOutcome :=
  if s.group.contains stats.receiverId then
    let group := s.group.markSeen stats.receiverId now
    let (needed, group) := group.onStats stats
    let (_, group) := group.repairDemand stats
    { loop := { s with group := group }
      feedback := needed.toList.map .needed }
  else { loop := s }

def onNak (s : SendLoop) (now : ℕ) (nak : Nak) : LoopOutcome :=
  let (blocks, group) := s.group.onNak nak now
  { loop := { s with group := group }
    feedback := if blocks = [] then [] else [.resend nak.sliceNo blocks] }

def control (s : SendLoop) (now : ℕ) : Message → LoopOutcome
  | .stats stats => s.onStats now stats
  | .nak nak => s.onNak now nak
  | .leave _ receiverId => { loop := { s with group := (s.group.leave receiverId).2 } }
  | _ => { loop := s }

/-- What a tick sends: evictions, the end once it is known, and before that a `Hello`. -/
theorem mem_tick_multicast {s : SendLoop} {now wanted : ℕ} {idle : Bool} {i : Incoming}
    (h : i ∈ (s.tick now idle wanted).multicast) :
    (∃ evicted, i = .control (.evicted evicted)) ∨ s.draining ∧ i = s.doneMessage ∨
      i = .control (.hello s.config.hello) := by
  simp only [tick, List.mem_append] at h
  rcases h with (h | h) | h
  · obtain ⟨e, -, rfl⟩ := List.mem_map.mp h
    exact .inl ⟨_, rfl⟩
  · split_ifs at h with hdraining
    · exact .inr (.inl ⟨hdraining, List.mem_singleton.mp h⟩)
    · cases h
  · split_ifs at h
    · exact .inr (.inr (List.mem_singleton.mp h))
    · cases h

end SendLoop

/-- Back at the top of the loop, unless the branch ended it; once it is over, the slicer is told. -/
def LoopOutcome.settle (o : LoopOutcome) : LoopOutcome :=
  let loop := if o.loop.verdict.isNone then o.loop.checkTop else o.loop
  { o with loop := loop
           feedback := o.feedback ++ if loop.verdict.isSome then [.done] else [] }

/-- Back at the top, the loop may find itself over; nothing else changes. -/
theorem LoopOutcome.settle_eq (o : LoopOutcome) : ∃ verdict, o.settle =
    { o with loop := { o.loop with verdict := verdict }
             feedback := o.feedback ++ if verdict.isSome then [.done] else [] } := by
  have hloop : ∃ verdict, (if o.loop.verdict.isNone then o.loop.checkTop else o.loop) =
      { o.loop with verdict := verdict } := by
    unfold SendLoop.checkTop
    split_ifs
    · exact ⟨_, rfl⟩
    · exact ⟨_, rfl⟩
    · exact ⟨o.loop.verdict, rfl⟩
    · exact ⟨o.loop.verdict, rfl⟩
  obtain ⟨verdict, heq⟩ := hloop
  exact ⟨verdict, by rw [settle, heq]⟩

/-- Away from the end of the input, and with somebody to send to, the loop goes on. -/
theorem LoopOutcome.settle_of_open {o : LoopOutcome} (hverdict : o.loop.verdict = none)
    (hmembers : o.loop.group.participants.values ≠ []) (hdraining : o.loop.draining = false) :
    o.settle = o := by
  have htop : o.loop.checkTop = o.loop := by
    simp [SendLoop.checkTop, Group.len, hmembers, hdraining]
  simp [settle, hverdict, htop]

end Scuttlecast
