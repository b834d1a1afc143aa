import Scuttlecast.Transfer

/-! When a session was started is told in its summary and nowhere else. -/
namespace Scuttlecast

/-- The session, had it been started at another time. -/
def Session.since (s : Session) (started : ℕ) : Session := { s with started := started }

namespace Outcome

def since (o : Outcome) (started : ℕ) : Outcome := { o with session := o.session.since started }

theorem since_andThen {f : Session → Outcome} {started : ℕ}
    (hf : ∀ s : Session, f (s.since started) = (f s).since started) (o : Outcome) :
    (o.since started).andThen f = (o.andThen f).since started := by
  rcases o with ⟨session, sent, handed, _ | ended⟩
  · simp only [andThen, since, hf]
  · rfl

end Outcome

namespace Session

variable {rs : ReedSolomon} {s : Session} {started : ℕ}

theorem sendNaks_since (gaps : List (ℕ × List ℕ)) :
    (s.since started).sendNaks gaps = (s.sendNaks gaps).since started := by
  induction gaps with
  | nil => rfl
  | cons gap rest ih =>
    unfold sendNaks
    dsimp only [since]
    split
    · rfl
    · dsimp only [Outcome.andThen]
      rw [show ({ s with started := started } : Session) = s.since started from rfl, ih]
      rfl

theorem requestGaps_since (now : ℕ) :
    (s.since started).requestGaps now = (s.requestGaps now).since started :=
  sendNaks_since (s := { s with naks := (s.naks.due (s.assembler.gaps s.emitFloor) now).2 }) _

theorem refused_since (sliceNo : ℕ) :
    (s.since started).refused sliceNo = (s.refused sliceNo).since started := by
  by_cases hlate : sliceNo < s.assembler.nextNeeded
  · simp [refused, since, hlate]
  · simp [refused, since, hlate]

theorem takeShard_since (frame : Frame) (now : ℕ) :
    (s.since started).takeShard frame now = (s.takeShard frame now).since started := by
  have hthen (floorAdvanced : Prop) [Decidable floorAdvanced] (s : Session) :
      (if floorAdvanced then (s.since started).requestGaps now else { session := s.since started }) =
        Outcome.since (if floorAdvanced then s.requestGaps now else { session := s }) started := by
    split_ifs
    · exact requestGaps_since now
    · rfl
  unfold takeShard
  rw [show (s.since started).assembler = s.assembler from rfl]
  dsimp only
  rcases s.assembler.insert frame.sliceNo frame.slot frame.sliceParity frame.payload with
    p | ⟨taken, assembler⟩
  · rfl
  · let counted : Session := { s with
      received := s.received + 1
      highestSeq := some (max (s.highestSeq.getD 0) frame.seq)
      emitFloor := max s.emitFloor frame.emitFloor
      assembler := assembler }
    cases taken with
    | true => exact hthen _ counted
    | false =>
      have hrefused := hthen (s.emitFloor < frame.emitFloor) (counted.refused frame.sliceNo)
      rw [← refused_since] at hrefused
      exact hrefused

theorem onArrival_since (now : ℕ) (arrival : Incoming) :
    (s.since started).onArrival now arrival = (s.onArrival now arrival).since started := by
  cases arrival with
  | shard frame =>
    have hcheck : (s.since started).checkShard frame = s.checkShard frame := rfl
    dsimp only [onArrival]
    unfold onShard
    rw [hcheck]
    rcases s.checkShard frame with p | e | _
    · rfl
    · rfl
    · exact takeShard_since frame now
  | control message =>
    cases message with
    | done done =>
      exact requestGaps_since (s := { s with
        totalBytes := some done.totalBytes
        assembler := s.assembler.onDone done.totalBlocks }) now
    | hello hello =>
      by_cases hfirst : s.received = 0
      · simp [onArrival, Outcome.since, since, hfirst]
      · simp [onArrival, Outcome.since, since, hfirst]
    | evicted evicted =>
      by_cases htarget : evicted.target = s.receiverId
      · simp [onArrival, Outcome.since, Outcome.fail, since, htarget]
      · simp [onArrival, Outcome.since, since, htarget]
    | _ => rfl

theorem onArrivals_since (arrivals : List (ℕ × Incoming)) :
    (s.since started).onArrivals arrivals = (s.onArrivals arrivals).since started := by
  induction arrivals generalizing s with
  | nil => rfl
  | cons arrival rest ih =>
    obtain ⟨now, arrival⟩ := arrival
    rw [onArrivals, onArrival_since, Outcome.since_andThen fun s => ih]
    rfl

theorem queueReady_since (blocks : List Bytes) :
    (s.since started).queueReady blocks = (s.queueReady blocks).since started := by
  induction blocks generalizing s with
  | nil => rfl
  | cons block rest ih =>
    have hcut : (s.since started).withinTotal block =
        ((s.withinTotal block).1, (s.withinTotal block).2.since started) := rfl
    unfold queueReady
    rw [hcut]
    dsimp only
    split_ifs
    · exact ih
    · exact ih (s := { (s.withinTotal block).2 with
        pending := (s.withinTotal block).2.pending ++ [(s.withinTotal block).1] })

theorem refill_since : (s.since started).refill rs = (s.refill rs).map (·.since started) := by
  have hready : (s.since started).assembler.takeReady rs = s.assembler.takeReady rs := rfl
  by_cases hpending : s.pending = []
  · have hpending' : (s.since started).pending = [] := hpending
    rw [refill, refill, if_pos hpending, if_pos hpending', hready]
    rcases s.assembler.takeReady rs with p | ⟨ready, assembler⟩
    · rfl
    · exact congrArg Except.ok (queueReady_since (s := { s with assembler := assembler }) ready)
  · have hpending' : (s.since started).pending ≠ [] := hpending
    rw [refill, refill, if_neg hpending, if_neg hpending']
    rfl

theorem handOver_since (sink : Sink) (now : ℕ) :
    (s.since started).handOver rs sink now = (s.handOver rs sink now).since started := by
  set stalled : Session := { s with
    sinkStall := s.sinkStall + if s.pending = [] then 0 else now - s.lastHandover
    lastHandover := now } with hstalled
  have hrefill : refill rs { s.since started with
      sinkStall := (s.since started).sinkStall +
        if (s.since started).pending = [] then 0 else now - (s.since started).lastHandover
      lastHandover := now } = (stalled.refill rs).map (·.since started) :=
    refill_since (s := stalled)
  unfold handOver
  dsimp only
  rw [hrefill, ← hstalled]
  rcases stalled.refill rs with p | s'
  · rfl
  · dsimp only [Except.map, since]
    by_cases hclosed : s'.pending.drop sink.room ≠ [] ∧ sink.closed = true
    · rw [if_pos hclosed, if_pos hclosed]
      rfl
    · rw [if_neg hclosed, if_neg hclosed]
      rfl

theorem branch_since (now : ℕ) (b : Branch) :
    (s.since started).branch now b = (s.branch now b).since started := by
  cases b with
  | packets arrivals => exact onArrivals_since (s := { s with lastPacket := now }) arrivals
  | renakTick => exact requestGaps_since now
  | _ => rfl

end Session

/-- How the session ended, however long it took. -/
def SessionEnd.timeless : SessionEnd → SessionEnd
  | .returned (.ok summary) => .returned (.ok { summary with duration := 0 })
  | e => e

def Outcome.timeless (o : Outcome) : Outcome :=
  { o with session := o.session.since 0, ended := o.ended.map SessionEnd.timeless }

/-- The receiver, whenever its session was started. -/
def Peer.timeless (p : Peer) : Peer :=
  { p with session := p.session.since 0, ended := p.ended.map SessionEnd.timeless }

/-- The receiver after a turn. -/
def Peer.after (p : Peer) (o : Outcome) : Peer :=
  { session := o.session, sunk := p.sunk ++ o.handed, ended := o.ended }

namespace Session

variable {rs : ReedSolomon} {s s' : Session} {started : ℕ}

/-- The time is up to the clock in what follows the loop, and only there. -/
theorem conclude_since (now : ℕ) :
    ((s.since started).conclude now).timeless = (s.conclude now).timeless := by
  have hcheck : (s.since started).checkByteTotal = s.checkByteTotal := rfl
  unfold conclude
  rw [hcheck]
  rcases s.checkByteTotal with e | _ <;> rfl

theorem turn_since (now : ℕ) (b : Branch) (sink : Sink) :
    ((s.since started).turn rs now b sink).timeless = (s.turn rs now b sink).timeless := by
  unfold turn
  rw [branch_since, Outcome.since_andThen fun s => handOver_since sink now]
  rcases (s.branch now b).andThen fun s => s.handOver rs sink now with
    ⟨session, sent, handed, _ | ended⟩
  · have hrunning : (session.since started).Running ↔ session.Running := Iff.rfl
    dsimp only [Outcome.since, Outcome.andThen]
    by_cases hrun : session.Running
    · rw [if_pos hrun, if_pos (hrunning.mpr hrun)]
      rfl
    · rw [if_neg hrun, if_neg (mt hrunning.mp hrun)]
      have hend : ((session.since started).conclude now).timeless =
          (session.conclude now).timeless := conclude_since now
      simp only [Outcome.timeless, Outcome.mk.injEq] at hend ⊢
      obtain ⟨hsession, hsent, hhanded, hended⟩ := hend
      rw [hsession, hsent, hhanded, hended]
      simp
  · rfl

theorem turn_timeless (h : s.since 0 = s'.since 0) (now : ℕ) (b : Branch) (sink : Sink) :
    (s.turn rs now b sink).timeless = (s'.turn rs now b sink).timeless := by
  have hs : ((s.since 0).turn rs now b sink).timeless = (s.turn rs now b sink).timeless :=
    turn_since now b sink
  rw [← hs, h, turn_since]

end Session

theorem Peer.timeless_after (rs : ReedSolomon) {p q : Peer} (h : p.timeless = q.timeless)
    (now : ℕ) (b : Session.Branch) (sink : Sink) :
    (p.after (p.session.turn rs now b sink)).timeless =
        (q.after (q.session.turn rs now b sink)).timeless ∧
      (p.session.turn rs now b sink).sent = (q.session.turn rs now b sink).sent ∧
      (p.session.turn rs now b sink).handed = (q.session.turn rs now b sink).handed ∧
      (p.session.turn rs now b sink).session.received =
        (q.session.turn rs now b sink).session.received := by
  simp only [timeless, Peer.mk.injEq] at h
  obtain ⟨hsession, hsunk, -⟩ := h
  have hturn : (p.session.turn rs now b sink).timeless = (q.session.turn rs now b sink).timeless :=
    Session.turn_timeless hsession now b sink
  simp only [Outcome.timeless, Outcome.mk.injEq] at hturn
  obtain ⟨hsession, hsent, hhanded, hended⟩ := hturn
  have hreceived := congrArg Session.received hsession
  refine ⟨?_, hsent, hhanded, hreceived⟩
  simp only [after, timeless, hsession, hsunk, hhanded, hended]

end Scuttlecast
