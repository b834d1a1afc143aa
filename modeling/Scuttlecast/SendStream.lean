import Scuttlecast.Sender.Egress
import Scuttlecast.Sender.Batching
import Scuttlecast.Sender.Bottleneck
import Scuttlecast.Sender.Pacing
import Scuttlecast.Sender.Report
import Scuttlecast.Roster

/-! `send_stream` whole: the group, the batches, the pacer, the controller and the progress that is
shown, one round of the loop after the other. Each of the parts does in it what it does by itself,
and what goes out is what the loop says one message at a time. -/
namespace Scuttlecast

/-- The fields of `Sender` that `send_stream` reads, with its arguments. -/
structure Sender where
  config : Config
  maxBatchSegments : ℕ
  maxRate : Option ℚ

instance : DecidablePred Outbound.IsShard
  | .shard .. => .isTrue trivial
  | .eof .. => .isFalse id

/-- What the `select!` of a round comes to: messages off the queue, after a wait, with or without
others left behind; the queue closed; the wait for credit over; a tick; the drain deadline; or a
control message. The weight of a moving average goes with a report. -/
inductive Select where
  | taken (waited : ℕ) (queued : List Outbound) (left : Bool)
  | closed
  | credit (left : Bool)
  | tick
  | deadline
  | control (alpha : ℚ) (message : Message)

/-- A round: the time at the top of the loop, and when it came to what. -/
structure Round where
  top : ℕ
  now : ℕ
  select : Select

/-- The messages taken are ones the slicer can queue. -/
def Round.Typed (g : Geometry) (r : Round) : Prop :=
  match r.select with
  | .taken _ queued _ => ∀ message ∈ queued, message.Typed g
  | _ => True

structure SendStream where
  egress : Egress
  feedback : List Feedback
  pacing : Pacing
  batching : Batching
  meter : SendMeter
  sourceWait : ℕ
  progress : TransferState
  limiting : LimitingFactor
  receivers : List ReceiverState

namespace SendStream

def start (sender : Sender) (group : Group) (now : ℕ) : SendStream :=
  let batch := (FrameBatch.new sender.config.geometry.blockSize sender.maxBatchSegments).narrowTo
    (Batching.new.segments sender.maxBatchSegments)
  { egress := ⟨.new sender.config group now, batch, []⟩
    feedback := []
    pacing := .new sender.maxRate now batch.capacity
    batching := .new
    meter := .new now
    sourceWait := 0
    progress := .default
    limiting := .unconstrained
    receivers := [] }

/-- The loop as it shows itself. -/
def ticking (s : SendStream) : Ticking := ⟨s.egress.loop, s.meter, s.progress, [], []⟩

/-- The control messages among them. -/
def controls (multicast : List Incoming) : List Sent :=
  multicast.filterMap fun
    | .control message => some (.control message)
    | .shard _ => none

/-- What a branch of the loop comes to, its messages sent one by one. -/
def follow (s : SendStream) (o : LoopOutcome) : SendStream :=
  { s with
    egress := { s.egress with
      loop := o.loop
      sent := s.egress.sent ++ controls o.multicast }
    feedback := s.feedback ++ o.feedback }

/-- The demand of the window that a report of a participant closes. -/
def demand (loop : SendLoop) (now : ℕ) : Message → Option (ℕ × ℚ)
  | .stats stats =>
    if loop.group.contains stats.receiverId then
      let group := (loop.group.markSeen stats.receiverId now).onStats stats
      (group.2.repairDemand stats).1.map fun demand => (stats.receiverId, demand)
    else none
  | _ => none

/-- What a round comes to for the pacer and the controller. -/
def pace (s : SendStream) (now : ℕ) : Select → Pacing.Branch
  | .taken _ queued left => .taken queued.length (queued.countP fun message => message.IsShard) left
  | .credit left => .slept left
  | .tick => .tick
  | .control alpha message =>
    match demand s.egress.loop now message with
    | some (id, demand) => .report alpha id demand
    | none => .other
  | _ => .other

/-- The loop takes what was queued, and flushes. -/
def take (s : SendStream) (now waited : ℕ) (queued : List Outbound) : Except Panic SendStream := do
  let egress ← s.egress.turn now queued
  .ok { s with
    egress := egress
    meter := queued.foldl (fun meter message => meter.sent s.egress.loop.config.geometry message)
      s.meter
    sourceWait := s.sourceWait + waited }

/-- No data block has been sent since the last tick. -/
def idle (s : SendStream) : Bool := s.meter.blocksSent = s.meter.blocksAtLastTick

/-- The parity that the losses call for, once the silent are out. -/
def wanted (s : SendStream) (sender : Sender) (now : ℕ) : ℕ :=
  parityFor (s.egress.loop.group.reapSilent now silenceTimeout).2.worstLoss
    sender.config.geometry.blocksPerSlice sender.config.geometry.parityPerSlice

/-- A tick, once the controller has had its own. -/
def tick (s : SendStream) (sender : Sender) (now : ℕ) (starved : Bool) : Except Panic SendStream := do
  let group := (s.egress.loop.group.reapSilent now silenceTimeout).2
  let wanted := s.wanted sender now
  let achieved := s.meter.achievedRate (s.meter.blocksSent - s.meter.blocksAtLastTick) now
  let shown ← s.ticking.tick now wanted
  let batching ← s.batching.observe group.worstLoss
  let bottleneck : Bottleneck :=
    { slowest := group.slowestParticipant
      worstDemand := s.pacing.controller.worst now
      demandThreshold := repairThreshold
      maxLiveSlices := sender.config.geometry.maxLiveSlices
      atCeiling := s.pacing.controller.atCeiling
      sourceWait := s.sourceWait - sourceWaitFloor
      worstSinkStall := group.worstSinkStall
      sinkStallThreshold := sinkStallFloor
      allowedRate := s.pacing.controller.rate
      achievedRate := achieved
      creditUnused := !starved
      draining := s.egress.loop.draining }
  let s := s.follow (s.egress.loop.tick now s.idle wanted)
  .ok { s with
    egress := { s.egress with
      batch := s.egress.batch.narrowTo (batching.segments sender.maxBatchSegments) }
    batching := batching
    meter := shown.meter
    sourceWait := 0
    progress := shown.progress
    limiting := bottleneck.limiting
    receivers := group.rows }

def branch (s : SendStream) (sender : Sender) (now : ℕ) (starved : Bool) :
    Select → Except Panic SendStream
  | .taken waited queued _ => s.take now waited queued
  | .closed => .ok (s.follow s.egress.loop.egressClosed)
  | .credit _ => .ok s
  | .tick => s.tick sender now starved
  | .deadline => .ok (s.follow s.egress.loop.deadline)
  | .control _ message => .ok (s.follow (s.egress.loop.control now message))

/-- Back at the top of the loop, or out of it, with the counts shown as they stand. -/
def settle (s : SendStream) (now : ℕ) : SendStream :=
  let s := s.follow (LoopOutcome.settle { loop := s.egress.loop })
  if s.egress.loop.verdict.isSome then { s with progress := (s.ticking.finish now).progress } else s

def paced (s : SendStream) (r : Round) : Pacing.Turn := ⟨r.top, r.now, s.pace r.now r.select⟩

def turn (s : SendStream) (sender : Sender) (r : Round) : Except Panic SendStream := do
  let starved := s.pacing.pacer.waited
  let pacing ← s.pacing.turn (s.paced r)
  let s ← { s with pacing := pacing }.branch sender r.now starved r.select
  .ok (s.settle r.now)

/-- The guards of the branches. -/
def Enabled (s : SendStream) (r : Round) : Prop :=
  s.egress.loop.verdict.isNone ∧ s.pacing.Enabled (s.paced r) ∧
    match r.select with
    | .closed => 0 < s.pacing.budget r.top
    | .deadline => s.egress.loop.Due (.deadline r.now)
    | _ => True

instance (s : SendStream) (r : Round) : Decidable (s.Enabled r) := by
  unfold Enabled
  cases r.select <;> infer_instance

/-- All runs of `send_stream` once its group is gathered. -/
def rounds (sender : Sender) (gathered : List Message) : Labelled.System SendStream Round where
  init s := (SendLoop.gather gathered).len ≠ 0 ∧
    ∃ now, s = start sender (SendLoop.gather gathered) now
  next r s := if s.Enabled r then (s.turn sender r).toOption else none

end SendStream

namespace SendLoop

variable {config : Config} {gathered : List Message} {s s' : SendLoop}

/-- What comes off the queue does not end the transfer: the end of the input clears the flag of
everybody. -/
theorem Unfinished.egress (h : s.Unfinished) (now : ℕ) (message : Outbound) :
    (s.egress now message).loop.Unfinished := by
  cases message with
  | shard => exact h
  | eof bytes blocks =>
    have hmember : ∃ id b, s.group.standing id = some b := by
      by_contra hnone
      push Not at hnone
      exact h.1 (Group.len_eq_zero_iff.mpr fun id => Option.eq_none_iff_forall_ne_some.mpr (hnone id))
    obtain ⟨id, b, hstanding⟩ := hmember
    have hcleared : (s.egress now (.eof bytes blocks)).loop.group.standing id = some false := by
      rw [SendLoop.egress, Group.standing_onEof, hstanding]
      rfl
    refine ⟨fun hzero => ?_, fun hdone => ?_⟩
    · have hnone := Group.len_eq_zero_iff.mp hzero id
      rw [hcleared] at hnone
      cases hnone
    · exact (Group.allComplete_iff.mp hdone.2).2 id hcleared

/-- The messages of a turn, one event each. -/
theorem exec_egress (hrun : s.verdict = none) (h : s.Unfinished) (now : ℕ)
    (queued : List Outbound) :
    (s.egressAll (queued.map fun message => (now, message))).1.verdict = none ∧
      (s.egressAll (queued.map fun message => (now, message))).1.Unfinished ∧
      Labelled.exec (loops config gathered) (queued.map (.egress now)) s =
        some (s.egressAll (queued.map fun message => (now, message))).1 ∧
      output (queued.map (.egress now)) s =
        ((s.egressAll (queued.map fun message => (now, message))).2, []) := by
  induction queued generalizing s with
  | nil => exact ⟨hrun, h, rfl, rfl⟩
  | cons message queued ih =>
    have hrun' : (s.egress now message).loop.verdict = none := by
      cases message <;> exact hrun
    have hopen := h.egress now message
    have hsettle : (s.branch (.egress now message)).settle = s.egress now message :=
      settle_of_unfinished hrun' hopen
    have hquiet : (s.egress now message).feedback = [] := by cases message <;> rfl
    have hnext : (loops config gathered).next (.egress now message) s =
        some (s.egress now message).loop := by
      rw [← hsettle]
      exact if_pos ⟨by rw [hrun]; rfl, trivial⟩
    obtain ⟨hverdict, hlast, hexec, hsaid⟩ := ih hrun' hopen
    refine ⟨hverdict, hlast, ?_, ?_⟩
    · rw [List.map_cons, Labelled.exec_cons, hnext, Option.bind_some]
      exact hexec
    · simp only [List.map_cons, output, hsettle, hquiet, hsaid, egressAll, List.nil_append]

theorem output_append {events events' : List Event}
    (hexec : Labelled.exec (loops config gathered) events s = some s') :
    output (events ++ events') s =
      ((output events s).1 ++ (output events' s').1, (output events s).2 ++ (output events' s').2) := by
  induction events generalizing s with
  | nil =>
    cases hexec
    rfl
  | cons e events ih =>
    rw [Labelled.exec_cons, Option.bind_eq_some_iff] at hexec
    obtain ⟨s₁, hnext, hexec⟩ := hexec
    obtain ⟨-, -, rfl⟩ := next_cases hnext
    simp only [List.cons_append, output, ih hexec, List.append_assoc]

theorem output_singleton (e : Event) :
    output [e] s = ((s.branch e).multicast, (s.branch e).settle.feedback) := by
  obtain ⟨verdict, heq⟩ := (s.branch e).settle_eq
  simp [output, heq]

/-- Only what comes off the queue puts shards on the wire. -/
theorem control_of_mem_multicast {e : Event} (h : ∀ now message, e ≠ .egress now message)
    {i : Incoming} (hi : i ∈ (s.branch e).multicast) : ∃ message, i = .control message := by
  cases e with
  | egress now message => exact absurd rfl (h now message)
  | tick now idle wanted =>
    rcases mem_tick_multicast hi with ⟨evicted, rfl⟩ | ⟨-, rfl⟩ | rfl
    · exact ⟨_, rfl⟩
    · exact ⟨_, rfl⟩
    · exact ⟨_, rfl⟩
  | control now message =>
    obtain ⟨group, feedback, heq⟩ := World.control_cases s now message
    rw [branch, heq] at hi
    cases hi
  | _ => cases hi

/-- Only messages off the queue are numbered. -/
theorem frame_branch {e : Event} (h : ∀ now message, e ≠ .egress now message) :
    (s.branch e).settle.loop.config = s.config ∧ (s.branch e).settle.loop.seq = s.seq := by
  obtain ⟨verdict, hsettle⟩ := (s.branch e).settle_eq
  rw [hsettle]
  cases e with
  | egress now message => exact absurd rfl (h now message)
  | control now message =>
    obtain ⟨group, feedback, heq⟩ := World.control_cases s now message
    rw [branch, heq]
    exact ⟨rfl, rfl⟩
  | _ => exact ⟨rfl, rfl⟩

end SendLoop

/-- Messages off the queue move the meter, and show nothing. -/
theorem Ticking.exec_egress {config : Config} {gathered : List Message} {t : Ticking}
    (hrun : t.loop.verdict = none) (h : t.loop.Unfinished) (now : ℕ) (queued : List Outbound) :
    Labelled.exec (runs config gathered)
        (queued.map fun message => (SendLoop.Event.egress now message, now)) t =
      some { t with
        loop := (t.loop.egressAll (queued.map fun message => (now, message))).1
        meter := queued.foldl (fun meter message => meter.sent t.loop.config.geometry message)
          t.meter } := by
  induction queued generalizing t with
  | nil => rfl
  | cons message queued ih =>
    have hrun' : (t.loop.egress now message).loop.verdict = none := by
      cases message <;> exact hrun
    have hsettle : (t.loop.branch (.egress now message)).settle = t.loop.egress now message :=
      SendLoop.settle_of_unfinished hrun' (h.egress now message)
    have hevent : t.event (.egress now message) now = .ok { t with
        loop := (t.loop.egress now message).loop
        meter := t.meter.sent t.loop.config.geometry message } := by
      rw [event, branch, ok_bind]
      dsimp only
      rw [hsettle, hrun']
      rfl
    have hnext : (runs config gathered).next (.egress now message, now) t = some { t with
        loop := (t.loop.egress now message).loop
        meter := t.meter.sent t.loop.config.geometry message } :=
      next_runs.mpr ⟨⟨by rw [hrun]; rfl, trivial, trivial⟩, hevent⟩
    rw [List.map_cons, Labelled.exec_cons, hnext, Option.bind_some, ih hrun' (h.egress now message)]
    simp only [List.map_cons, SendLoop.egressAll, List.foldl_cons, SendLoop.egress_config]

namespace SendStream

variable {sender : Sender} {gathered : List Message} {s s' s₀ : SendStream} {r : Round}

/-- What the loop takes up in a round, and when. -/
def events (s : SendStream) (sender : Sender) (r : Round) : List (SendLoop.Event × ℕ) :=
  match r.select with
  | .taken _ queued _ => queued.map fun message => (.egress r.now message, r.now)
  | .closed => [(.egressClosed, r.now)]
  | .credit _ => []
  | .tick => [(.tick r.now s.idle (s.wanted sender r.now), r.now)]
  | .deadline => [(.deadline r.now, r.now)]
  | .control _ message => [(.control r.now message, r.now)]

/-- The loop, the pacing and what is shown, each on its own after what the whole has been through. -/
structure Tracks (sender : Sender) (gathered : List Message) (s₀ s : SendStream)
    (events : List (SendLoop.Event × ℕ)) (turns : List Pacing.Turn) : Prop where
  loop : Labelled.exec (SendLoop.loops sender.config gathered) (events.map Prod.fst)
    s₀.egress.loop = some s.egress.loop
  delivered : Delivered sender.config s.egress.sent
    (SendLoop.output (events.map Prod.fst) s₀.egress.loop).1
  told : s.feedback = (SendLoop.output (events.map Prod.fst) s₀.egress.loop).2
  pacing : Labelled.exec (Pacing.loop sender.maxRate) turns s₀.pacing = some s.pacing
  shown : ∃ t, Labelled.exec (Ticking.runs sender.config gathered) events s₀.ticking = some t ∧
    t.loop = s.egress.loop ∧ t.meter = s.meter ∧ t.progress = s.progress
  staged : s.egress.Staged []

theorem delivered_controls (c : Config) {multicast : List Incoming}
    (h : ∀ i ∈ multicast, ∃ message, i = .control message) :
    Delivered c (controls multicast) multicast := by
  induction multicast with
  | nil => exact .nil c
  | cons i multicast ih =>
    obtain ⟨message, rfl⟩ := h _ List.mem_cons_self
    exact (Delivered.control c message).append (ih fun i hi => h i (List.mem_cons_of_mem _ hi))

theorem egress_settle (s : SendStream) (now : ℕ) : (s.settle now).egress =
    { s.egress with loop := (LoopOutcome.settle { loop := s.egress.loop }).loop } := by
  unfold settle
  dsimp only
  split_ifs <;> simp [follow, controls, LoopOutcome.settle]

theorem feedback_settle (s : SendStream) (now : ℕ) : (s.settle now).feedback =
    s.feedback ++ (LoopOutcome.settle { loop := s.egress.loop }).feedback := by
  unfold settle
  dsimp only
  split_ifs <;> rfl

theorem pacing_settle (s : SendStream) (now : ℕ) : (s.settle now).pacing = s.pacing := by
  unfold settle
  dsimp only
  split_ifs <;> rfl

theorem settle_of_unfinished (s : SendStream) (hrun : s.egress.loop.verdict = none)
    (hopen : s.egress.loop.Unfinished) (now : ℕ) : s.settle now = s := by
  have hsettle : LoopOutcome.settle { loop := s.egress.loop } = { loop := s.egress.loop } :=
    SendLoop.settle_of_unfinished hrun hopen
  have hfollow : s.follow { loop := s.egress.loop } = s := by simp [follow, controls]
  simp [settle, hsettle, hfollow, hrun]

/-- What is shown after a branch, once the loop is back at its top or out. -/
theorem shown_settle {t t₁ : Ticking} {e : SendLoop.Event} {now : ℕ} (hbranch : t.branch e = .ok t₁)
    (hloop : (t₁.loop.branch e).loop = s.egress.loop) (hmeter : t₁.meter = s.meter)
    (hprogress : t₁.progress = s.progress) : ∃ t', t.event e now = .ok t' ∧
      t'.meter = (s.settle now).meter ∧ t'.progress = (s.settle now).progress := by
  have hsettle : (t₁.loop.branch e).settle.loop =
      (LoopOutcome.settle { loop := s.egress.loop }).loop := by
    rw [← hloop]
    rfl
  rw [Ticking.event, hbranch, ok_bind]
  dsimp only
  rw [hsettle]
  refine ⟨_, rfl, ?_⟩
  unfold settle follow
  dsimp only
  split_ifs
  · refine ⟨hmeter, ?_⟩
    simp only [Ticking.finish, ticking, hmeter, hprogress]
    rfl
  · exact ⟨hmeter, hprogress⟩

theorem next_rounds : (rounds sender gathered).next r s = some s' ↔
    s.Enabled r ∧ s.turn sender r = .ok s' := by
  simp only [rounds, Option.ite_none_right_eq_some, toOption_eq_some]

variable {taken : List (SendLoop.Event × ℕ)} {turns : List Pacing.Turn}

/-- A round that takes up one event, no message off the queue. -/
theorem Tracks.single (h : Tracks sender gathered s₀ s taken turns)
    (hrun : s.egress.loop.verdict = none)
    {e : SendLoop.Event} {now : ℕ} {turn : Pacing.Turn} (hdue : s.egress.loop.Due e)
    (he : ∀ now message, e ≠ .egress now message)
    (hpacing : (Pacing.loop sender.maxRate).next turn s.pacing = some s'.pacing)
    (hloop : s'.egress.loop = (s.egress.loop.branch e).loop)
    (hsent : s'.egress.sent = s.egress.sent ++ controls (s.egress.loop.branch e).multicast)
    (htold : s'.feedback = s.feedback ++ (s.egress.loop.branch e).feedback)
    (hbatch : s'.egress.batch.Holds [])
    (hsegment : s'.egress.batch.segmentSize = s.egress.batch.segmentSize)
    (hshown : ∀ t : Ticking, t.loop = s.egress.loop → t.meter = s.meter →
      t.progress = s.progress → t.Idle e ∧ ∃ t₁, t.branch e = .ok t₁ ∧ t₁.loop = t.loop ∧
        t₁.meter = s'.meter ∧ t₁.progress = s'.progress) :
    Tracks sender gathered s₀ (s'.settle now) (taken ++ [(e, now)]) (turns ++ [turn]) := by
  have hsettle : (LoopOutcome.settle { loop := s'.egress.loop }).loop =
      (s.egress.loop.branch e).settle.loop := by
    rw [hloop]
    rfl
  have hnext : (SendLoop.loops sender.config gathered).next e s.egress.loop =
      some (s'.settle now).egress.loop := by
    rw [egress_settle, hsettle]
    exact if_pos ⟨by rw [hrun]; rfl, hdue⟩
  obtain ⟨t, hexec, htloop, htmeter, htprogress⟩ := h.shown
  obtain ⟨hidle, t₁, hbranch, ht₁loop, ht₁meter, ht₁progress⟩ := hshown t htloop htmeter htprogress
  obtain ⟨t', hevent, hmeter, hprogress⟩ : ∃ t', t.event e now = .ok t' ∧ _ ∧ _ :=
    shown_settle hbranch (by rw [ht₁loop, htloop, hloop]) ht₁meter ht₁progress
  have htnext : (Ticking.runs sender.config gathered).next (e, now) t = some t' :=
    Ticking.next_runs.mpr ⟨⟨by rw [htloop, hrun]; rfl, htloop ▸ hdue, hidle⟩, hevent⟩
  obtain ⟨hsame, hseq⟩ := SendLoop.frame_branch (s := s.egress.loop) he
  constructor
  · rw [List.map_append, List.map_singleton, Labelled.exec_concat_of_eq h.loop, hnext]
  · rw [List.map_append, SendLoop.output_append h.loop, egress_settle, hsent, List.map_singleton,
      SendLoop.output_singleton]
    exact h.delivered.append
      (delivered_controls _ fun i hi => SendLoop.control_of_mem_multicast he hi)
  · rw [List.map_append, SendLoop.output_append h.loop, feedback_settle, htold, h.told, hloop,
      List.map_singleton, SendLoop.output_singleton, List.append_assoc]
    simp [LoopOutcome.settle]
  · rw [Labelled.exec_concat_of_eq h.pacing, pacing_settle, hpacing]
  · refine ⟨t', ?_, ?_, hmeter, hprogress⟩
    · rw [Labelled.exec_concat_of_eq hexec, htnext]
    · rw [Ticking.event_loop hevent, htloop, egress_settle, hsettle]
  · rw [egress_settle, hsettle]
    refine ⟨hbatch, ?_, by simp, ?_⟩
    · show s'.egress.batch.segmentSize = _
      rw [hsegment, h.staged.size, hsame]
    · show (s.egress.loop.branch e).settle.loop.seq < 2 ^ 32
      rw [hseq]
      exact h.staged.seq_lt

/-- A branch at which the meter stands still. -/
theorem Tracks.follow (h : Tracks sender gathered s₀ s taken turns)
    (hrun : s.egress.loop.verdict = none) (e : SendLoop.Event) (hdue : s.egress.loop.Due e)
    (he : ∀ now message, e ≠ .egress now message) (hquiet : ∀ t : Ticking, t.branch e = .ok t)
    (hidle : ∀ t : Ticking, t.Idle e) {turn : Pacing.Turn} {pacing : Pacing}
    (hpacing : (Pacing.loop sender.maxRate).next turn s.pacing = some pacing) (now : ℕ) :
    Tracks sender gathered s₀
      (({ s with pacing := pacing }.follow (s.egress.loop.branch e)).settle now)
      (taken ++ [(e, now)]) (turns ++ [turn]) := by
  refine h.single hrun hdue he hpacing rfl rfl rfl h.staged.holds rfl ?_
  exact fun t _ hmeter hprogress => ⟨hidle t, t, hquiet t, rfl, hmeter, hprogress⟩

theorem Tracks.tick (h : Tracks sender gathered s₀ s taken turns)
    (hrun : s.egress.loop.verdict = none) {turn : Pacing.Turn} {pacing : Pacing} {now : ℕ}
    {starved : Bool} (hpacing : (Pacing.loop sender.maxRate).next turn s.pacing = some pacing)
    (htick : { s with pacing := pacing }.tick sender now starved = .ok s') :
    Tracks sender gathered s₀ (s'.settle now)
      (taken ++ [(.tick now s.idle (s.wanted sender now), now)]) (turns ++ [turn]) := by
  obtain ⟨shown, hshown, htick⟩ := bind_ok_iff.mp htick
  obtain ⟨batching, -, htick⟩ := bind_ok_iff.mp htick
  cases htick
  refine h.single hrun trivial (by simp) hpacing rfl rfl rfl (h.staged.holds.narrowTo _) rfl ?_
  intro t hloop hmeter hprogress
  obtain ⟨counts, hcounts, hshown⟩ := bind_ok_iff.mp hshown
  cases hshown
  refine ⟨?_, ?_⟩
  · show s.idle = decide (t.meter.blocksSent = t.meter.blocksAtLastTick)
    rw [hmeter]
    rfl
  · have htick : t.tick now (s.wanted sender now) = _ :=
      bind_ok_iff.mpr ⟨counts, by rw [hmeter]; exact hcounts, rfl⟩
    refine ⟨_, htick, rfl, rfl, ?_⟩
    dsimp only
    rw [hloop]
    rfl

/-- A round that takes messages off the queue. -/
theorem Tracks.take (h : Tracks sender gathered s₀ s taken turns)
    (hconfig : s.egress.loop.config = sender.config) (hrun : s.egress.loop.verdict = none)
    (hopen : s.egress.loop.Unfinished) {turn : Pacing.Turn} {pacing : Pacing} {now waited : ℕ}
    {queued : List Outbound}
    (htyped : ∀ message ∈ queued, message.Typed sender.config.geometry)
    (hpacing : (Pacing.loop sender.maxRate).next turn s.pacing = some pacing)
    (htake : { s with pacing := pacing }.take now waited queued = .ok s') :
    Tracks sender gathered s₀ (s'.settle now)
      (taken ++ queued.map fun message => (.egress now message, now)) (turns ++ [turn]) := by
  obtain ⟨egress, hegress, htake⟩ := bind_ok_iff.mp htake
  cases htake
  obtain ⟨egress', hegress', hsim⟩ := h.staged.turn now (hconfig ▸ htyped)
  cases hegress.symm.trans hegress'
  have hevents : (queued.map fun message => (SendLoop.Event.egress now message, now)).map Prod.fst =
      queued.map (.egress now) := by
    rw [List.map_map]
    rfl
  obtain ⟨hverdict, hlast, hexec, hsaid⟩ : _ ∧ _ ∧
      Labelled.exec (SendLoop.loops sender.config gathered) _ _ = _ ∧ _ :=
    SendLoop.exec_egress hrun hopen now queued
  rw [settle_of_unfinished _ (by rw [hsim.loop_eq, hverdict]) (by rw [hsim.loop_eq]; exact hlast)]
  obtain ⟨newly, arrived, hsent, hdelivered, harrived⟩ := hsim.delivered
  simp only [List.map_nil, List.append_nil, List.nil_append] at harrived
  rw [harrived, hconfig] at hdelivered
  obtain ⟨t, ht, htloop, htmeter, htprogress⟩ := h.shown
  have hmoved : Labelled.exec (Ticking.runs sender.config gathered) (taken ++ _) s₀.ticking = _ :=
    (Labelled.exec_append_of_eq ht).trans
      (Ticking.exec_egress (by rw [htloop, hrun]) (htloop ▸ hopen) now queued)
  constructor
  · rw [List.map_append, hevents, Labelled.exec_append_of_eq h.loop, hexec]
    exact congrArg some hsim.loop_eq.symm
  · rw [List.map_append, hevents, SendLoop.output_append h.loop, hsaid]
    exact hsent ▸ h.delivered.append hdelivered
  · rw [List.map_append, hevents, SendLoop.output_append h.loop, hsaid, h.told]
    exact (List.append_nil _).symm
  · rw [Labelled.exec_concat_of_eq h.pacing, hpacing]
  · refine ⟨_, hmoved, ?_, ?_, ?_⟩
    · rw [htloop]
      exact hsim.loop_eq.symm
    · rw [htloop, htmeter]
    · exact htprogress
  · exact hsim.staged

/-- Waiting for credit takes nothing up. -/
theorem Tracks.credit (h : Tracks sender gathered s₀ s taken turns)
    (hrun : s.egress.loop.verdict = none) (hopen : s.egress.loop.Unfinished) {turn : Pacing.Turn}
    {pacing : Pacing} (hpacing : (Pacing.loop sender.maxRate).next turn s.pacing = some pacing)
    (now : ℕ) : Tracks sender gathered s₀ ({ s with pacing := pacing }.settle now) taken
      (turns ++ [turn]) := by
  have hsettle : { s with pacing := pacing }.settle now = { s with pacing := pacing } :=
    settle_of_unfinished { s with pacing := pacing } hrun hopen now
  rw [hsettle]
  refine ⟨h.loop, h.delivered, h.told, ?_, h.shown, h.staged⟩
  rw [Labelled.exec_concat_of_eq h.pacing, hpacing]

theorem Tracks.attends (hinit : (rounds sender gathered).init s₀)
    (h : Tracks sender gathered s₀ s taken turns) :
    SendLoop.Attends sender.config gathered (taken.map Prod.fst) s.egress.loop ∧
      s.egress.loop.Concluded := by
  obtain ⟨hlen, now, rfl⟩ := hinit
  exact SendLoop.attends_of_exec ⟨hlen, now, rfl⟩ h.loop

theorem Tracks.next (h : Tracks sender gathered s₀ s taken turns)
    (hconfig : s.egress.loop.config = sender.config) (hconcluded : s.egress.loop.Concluded)
    (htyped : r.Typed sender.config.geometry) (hn : (rounds sender gathered).next r s = some s') :
    Tracks sender gathered s₀ s' (taken ++ s.events sender r) (turns ++ [s.paced r]) := by
  obtain ⟨⟨hrun, henabled, hguard⟩, hturn⟩ := next_rounds.mp hn
  obtain ⟨pacing, hpace, hturn⟩ := bind_ok_iff.mp hturn
  obtain ⟨s₁, hbranch, hturn⟩ := bind_ok_iff.mp hturn
  cases hturn
  rw [Option.isNone_iff_eq_none] at hrun
  have hpacing : (Pacing.loop sender.maxRate).next (s.paced r) s.pacing = some pacing :=
    Pacing.next_loop.mpr ⟨henabled, hpace⟩
  have hopen : s.egress.loop.Unfinished := by
    rw [SendLoop.Concluded, hrun] at hconcluded
    exact hconcluded
  rcases r with ⟨top, now, select⟩
  cases select with
  | taken waited queued left => exact h.take hconfig hrun hopen htyped hpacing hbranch
  | closed =>
    cases hbranch
    exact h.follow hrun .egressClosed trivial (by simp) (fun _ => rfl) (fun _ => trivial) hpacing now
  | credit left =>
    cases hbranch
    rw [events, List.append_nil]
    exact h.credit hrun hopen hpacing now
  | tick => exact h.tick hrun hpacing hbranch
  | deadline =>
    cases hbranch
    exact h.follow hrun (.deadline now) hguard (by simp) (fun _ => rfl) (fun _ => trivial) hpacing now
  | control alpha message =>
    cases hbranch
    exact h.follow hrun (.control now message) trivial (by simp) (fun _ => rfl) (fun _ => trivial) hpacing now

theorem tracks_start (hinit : (rounds sender gathered).init s₀) :
    Tracks sender gathered s₀ s₀ [] [] := by
  obtain ⟨-, now, rfl⟩ := hinit
  have hholds := (FrameBatch.new_holds sender.config.geometry.blockSize_pos
    sender.maxBatchSegments).narrowTo (Batching.new.segments sender.maxBatchSegments)
  exact ⟨rfl, .nil _, rfl, rfl, ⟨_, rfl, rfl, rfl, rfl⟩,
    ⟨hholds, rfl, by simp, by simp [start, SendLoop.new]⟩⟩

theorem tracks_of_exec {run : List Round} (hinit : (rounds sender gathered).init s₀)
    (hexec : Labelled.exec (rounds sender gathered) run s₀ = some s)
    (htyped : ∀ r ∈ run, r.Typed sender.config.geometry) :
    Tracks sender gathered s₀ s
      (Labelled.yields (rounds sender gathered) (fun r s => s.events sender r) run s₀)
      (Labelled.yields (rounds sender gathered) (fun r s => [s.paced r]) run s₀) := by
  induction run using List.reverseRecOn generalizing s with
  | nil =>
    cases hexec
    exact tracks_start hinit
  | append_singleton run r ih =>
    rw [Labelled.exec_append, Option.bind_eq_some_iff] at hexec
    obtain ⟨s₁, hrun, hlast⟩ := hexec
    rw [Labelled.exec_cons, Option.bind_eq_some_iff] at hlast
    obtain ⟨s₂, hnext, hlast⟩ := hlast
    cases hlast
    rw [Labelled.yields_concat hrun, Labelled.yields_concat hrun]
    have h := ih hrun fun r hr => htyped r (List.mem_append_left _ hr)
    obtain ⟨hattends, hconcluded⟩ := h.attends hinit
    exact h.next hattends.shape hconcluded (htyped r (by simp)) hnext

theorem pacing_reachable (hinit : (rounds sender gathered).init s₀)
    (h : Tracks sender gathered s₀ s taken turns) :
    Labelled.Reachable (Pacing.loop sender.maxRate) s.pacing := by
  obtain ⟨-, now, rfl⟩ := hinit
  exact .exec (.start ⟨now, _, rfl⟩) h.pacing

/-- In every run of `send_stream` the loop, the pacing and what is shown go through what each goes
through on its own; what is put on the wire, batched or not, gives a receiver that loses nothing
what the loop says one message at a time, nothing is left staged, and the slicer is told the same. -/
theorem parts_do_as_alone {run : List Round} (hinit : (rounds sender gathered).init s₀)
    (hexec : Labelled.exec (rounds sender gathered) run s₀ = some s)
    (htyped : ∀ r ∈ run, r.Typed sender.config.geometry) :
    ∃ events turns,
      events = Labelled.yields (rounds sender gathered) (fun r s => s.events sender r) run s₀ ∧
      turns = Labelled.yields (rounds sender gathered) (fun r s => [s.paced r]) run s₀ ∧
      Labelled.exec (SendLoop.loops sender.config gathered) (events.map Prod.fst)
        s₀.egress.loop = some s.egress.loop ∧
      Delivered sender.config s.egress.sent
        (SendLoop.output (events.map Prod.fst) s₀.egress.loop).1 ∧
      s.egress.batch.isEmpty = true ∧
      s.feedback = (SendLoop.output (events.map Prod.fst) s₀.egress.loop).2 ∧
      Labelled.exec (Pacing.loop sender.maxRate) turns s₀.pacing = some s.pacing ∧
      ∃ t, Labelled.exec (Ticking.runs sender.config gathered) events s₀.ticking = some t ∧
        t.loop = s.egress.loop ∧ t.meter = s.meter ∧ t.progress = s.progress := by
  have h := tracks_of_exec hinit hexec htyped
  refine ⟨_, _, rfl, rfl, h.loop, h.delivered, ?_, h.told, h.pacing, h.shown⟩
  simp [FrameBatch.isEmpty, h.staged.holds.segments_eq]

/-- A block, the end of the input and the report of it, all in three rounds. -/
def threeRounds : List Round :=
  [⟨0, 5000000, .tick⟩, ⟨5000000, 6000000, .taken 3 [.shard 0 0 0 1 [1, 0], .eof 1 1] false⟩,
    ⟨6000000, 7000000, .control 0 (.stats ⟨7, 0, 1, 1, 1, 0⟩)⟩]

theorem parts_do_as_alone_three : ∃ s,
    Labelled.exec (rounds ⟨.tiny 2, 4, none⟩ [.join 7 0]) threeRounds
      (start ⟨.tiny 2, 4, none⟩ (SendLoop.gather [.join 7 0]) 0) = some s ∧
    s.egress.batch.isEmpty = true ∧ s.feedback = [.needed 1, .done] := by
  obtain ⟨s, hexec, hfeedback⟩ : ∃ s,
      Labelled.exec (rounds ⟨.tiny 2, 4, none⟩ [.join 7 0]) threeRounds
        (start ⟨.tiny 2, 4, none⟩ (SendLoop.gather [.join 7 0]) 0) = some s ∧
      s.feedback = [.needed 1, .done] := by
    apply Option.map_eq_some_iff.mp
    decide +kernel
  have hinit : (rounds ⟨.tiny 2, 4, none⟩ [.join 7 0]).init
      (start ⟨.tiny 2, 4, none⟩ (SendLoop.gather [.join 7 0]) 0) := ⟨by decide, 0, rfl⟩
  have htyped : ∀ r ∈ threeRounds, r.Typed (Config.tiny 2).geometry := by
    have hsize : [1, 0].length = (Config.tiny 2).geometry.blockSize := rfl
    simp [threeRounds, Round.Typed, Outbound.Typed, ← hsize]
  obtain ⟨_, _, -, -, -, -, hempty, -⟩ := parts_do_as_alone hinit hexec htyped
  exact ⟨s, hexec, hempty, hfeedback⟩

end SendStream
end Scuttlecast
