import Scuttlecast.Estimate
import Scuttlecast.Library.Labelled
import Scuttlecast.Receiver.Repair

/-! What a session reports of its progress: at every tick of its statistics and once at its end, the
bytes written since the report before make a sample of its rate. -/
namespace Scuttlecast

namespace Session

/-- The fields of the session that only its reports use. -/
structure Meter where
  announcedBytes : Option ℕ
  bytesAtLastReport : ℕ
  lastReport : ℕ
  bytesPerSecond : Smoothed

/-- What a session shows at this rate. -/
def shown (s : Session) (m : Meter) (rate : ℚ) (now : ℕ) : ReceiveState where
  transferId := s.transferId
  announcedBytes := s.totalBytes.or m.announcedBytes
  receivedBytes := s.writtenBytes
  nextNeededSlice := s.assembler.nextNeeded
  duplicates := s.duplicates
  naks := s.naks.total
  bytesPerSecond := rate
  elapsed := now - s.started

/-- A clock that ran backwards has not moved. -/
def reportProgress (s : Session) (m : Meter) (now : ℕ) : Except Panic (ReceiveState × Meter) := do
  let sinceLast := seconds (now - m.lastReport)
  let (rate, bytesPerSecond) ←
    if 0 < sinceLast then do
      let written ← subChecked 64 s.writtenBytes m.bytesAtLastReport
      .ok (m.bytesPerSecond.observe (written / sinceLast))
    else .ok (m.bytesPerSecond.current, m.bytesPerSecond)
  .ok (s.shown m rate now, { m with
    bytesAtLastReport := s.writtenBytes
    lastReport := now
    bytesPerSecond := bytesPerSecond })

section Written

variable {rs : ReedSolomon} {s : Session}

theorem requestGaps_written (s : Session) (now : ℕ) :
    (s.requestGaps now).session.writtenBytes = s.writtenBytes := by
  obtain ⟨⟨naks, heq⟩, -⟩ := requestGaps_session s now
  rw [heq]

theorem refused_written (s : Session) (k : ℕ) : (s.refused k).writtenBytes = s.writtenBytes := by
  obtain ⟨late, duplicates, heq⟩ := refused_eq s k
  rw [heq]

theorem takeShard_written (s : Session) (frame : Frame) (now : ℕ) :
    (s.takeShard frame now).session.writtenBytes = s.writtenBytes := by
  unfold takeShard
  dsimp only
  split
  · rfl
  · next taken assembler _ =>
    split_ifs
    · exact requestGaps_written _ now
    · exact (requestGaps_written _ now).trans (refused_written _ _)
    · rfl
    · exact refused_written _ _

theorem onArrival_written (s : Session) (now : ℕ) (arrival : Incoming) :
    (s.onArrival now arrival).session.writtenBytes = s.writtenBytes := by
  unfold onArrival
  split
  · unfold onShard
    split
    · rfl
    · rfl
    · exact takeShard_written s _ now
  · exact requestGaps_written _ now
  · split_ifs <;> rfl
  · split_ifs <;> rfl
  · rfl

theorem onArrivals_written (s : Session) (arrivals : List (ℕ × Incoming)) :
    (s.onArrivals arrivals).session.writtenBytes = s.writtenBytes := by
  induction arrivals generalizing s with
  | nil => rfl
  | cons a rest ih =>
    have hfirst := onArrival_written s a.1 a.2
    unfold onArrivals
    rcases (s.onArrival a.1 a.2).andThen_cases fun s => s.onArrivals rest with
      ⟨_, _, heq⟩ | ⟨_, heq⟩ <;> rw [heq]
    · exact hfirst
    · exact (ih _).trans hfirst

/-- Only a hand-over writes. -/
theorem branch_written (s : Session) (now : ℕ) (b : Branch) :
    (s.branch now b).session.writtenBytes = s.writtenBytes := by
  cases b with
  | packets arrivals => exact onArrivals_written { s with lastPacket := now } arrivals
  | renakTick => exact requestGaps_written s now
  | _ => rfl

theorem handOver_written (s : Session) (sink : Sink) (now : ℕ) :
    s.writtenBytes ≤ (s.handOver rs sink now).session.writtenBytes := by
  unfold handOver
  dsimp only
  split
  · exact le_rfl
  · next s₁ hr =>
    have hle : s.writtenBytes ≤ s₁.writtenBytes := by
      rcases refill_cases hr with ⟨_, rfl⟩ | ⟨_, _, _, _, _, rfl, _⟩
      · exact le_rfl
      · exact Nat.le_add_right ..
    split_ifs
    · exact hle
    · exact hle

theorem beforeGuard_written (s : Session) (now : ℕ) (b : Branch) (sink : Sink) :
    s.writtenBytes ≤ (s.beforeGuard rs now b sink).session.writtenBytes := by
  rw [← branch_written s now b]
  unfold beforeGuard
  rcases (s.branch now b).andThen_cases fun s => s.handOver rs sink now with
    ⟨_, _, heq⟩ | ⟨_, heq⟩ <;> rw [heq]
  exact handOver_written _ sink now

/-- What follows the guard of the loop writes nothing more. -/
theorem turn_written (s : Session) (now : ℕ) (b : Branch) (sink : Sink) :
    (s.turn rs now b sink).session.writtenBytes =
      (s.beforeGuard rs now b sink).session.writtenBytes := by
  show ((s.beforeGuard rs now b sink).andThen _).session.writtenBytes = _
  rcases (s.beforeGuard rs now b sink).andThen_cases fun s =>
    if s.Running then { session := s } else s.conclude now with ⟨_, _, heq⟩ | ⟨_, heq⟩ <;> rw [heq]
  dsimp only
  split_ifs
  · rfl
  · rcases hcheck : (s.beforeGuard rs now b sink).session.checkByteTotal with e | _
    · rw [conclude, hcheck]
      rfl
    · rw [conclude_of_check hcheck]

end Written

/-- What has been written since the last report over the time since, if there has been any. -/
def Meter.sample (m : Meter) (s : Session) (now : ℕ) : List ℚ :=
  if 0 < seconds (now - m.lastReport) then
    [((s.writtenBytes - m.bytesAtLastReport : ℕ) : ℚ) / seconds (now - m.lastReport)]
  else []

theorem Meter.sample_nonneg {m : Meter} {s : Session} {now : ℕ} :
    ∀ x ∈ m.sample s now, 0 ≤ x := by
  unfold Meter.sample
  split_ifs with h
  · intro x hx
    rw [List.mem_singleton.mp hx]
    exact div_nonneg (Nat.cast_nonneg _) h.le
  · nofun

/-- A report feeds its sample to the rate it shows, and dies of nothing but fewer bytes than
before. -/
theorem reportProgress_eq {s : Session} {m : Meter} {samples : List ℚ}
    (hfed : m.bytesPerSecond = .fed samples) (hle : m.bytesAtLastReport ≤ s.writtenBytes)
    (now : ℕ) : s.reportProgress m now = .ok
      (s.shown m (Smoothed.fed (samples ++ m.sample s now)).current now,
        ⟨m.announcedBytes, s.writtenBytes, now, .fed (samples ++ m.sample s now)⟩) := by
  unfold reportProgress Meter.sample
  dsimp only
  rw [hfed, subChecked_of_le hle]
  split_ifs
  · rw [Smoothed.fed_concat]
    rfl
  · rw [List.append_nil]
    rfl

end Session

/-- A session with its meter, what it has shown last and the samples it has taken. -/
structure Reporting where
  session : Session
  meter : Session.Meter
  progress : ReceiveState
  samples : List ℚ
  isOver : Bool

namespace Reporting

/-- A report made in the course of a turn, when the session has come this far. -/
def report (r : Reporting) (s : Session) (now : ℕ) : Except Panic Reporting := do
  let (progress, meter) ← s.reportProgress r.meter now
  .ok { r with meter := meter, progress := progress, samples := r.samples ++ r.meter.sample s now }

def reportIf (c : Prop) [Decidable c] (r : Reporting) (s : Session) (now : ℕ) :
    Except Panic Reporting :=
  if c then r.report s now else .ok r

/-- A turn of the loop: the tick of the statistics ends with a report, and so does the loop. -/
def turn (rs : ReedSolomon) (r : Reporting) (now : ℕ) (b : Session.Branch) (sink : Sink) :
    Except Panic Reporting := do
  let s := r.session
  let r ← r.reportIf (b = .statsTick) (s.branch now b).session now
  let o := s.beforeGuard rs now b sink
  let concludes := o.ended.isNone ∧ ¬ o.session.Running ∧ o.session.checkByteTotal.isOk
  let r ← r.reportIf concludes o.session.sendStats.session now
  let o := s.turn rs now b sink
  .ok { r with session := o.session, isOver := o.ended.isSome }

/-- The runs of a session for this `Hello`, with its reports. -/
def runs (rs : ReedSolomon) (hello : Hello) (receiverId : ℕ) :
    Labelled.System Reporting (ℕ × Session.Branch × Sink) where
  init r := ∃ now, Session.new hello receiverId now = .ok r.session ∧
    r.meter = ⟨hello.totalBytes, 0, now, .default⟩ ∧ r.progress = .default ∧ r.samples = [] ∧
      r.isOver = false
  next := fun (now, b, sink) r =>
    if ¬ r.isOver ∧ r.session.Enabled now b then (r.turn rs now b sink).toOption else none

/-- The rate shown is the smoothed one of the samples taken, none of which is below zero, and a
session that has come this far has written what the meter has seen. -/
structure Metered (r : Reporting) (s : Session) : Prop where
  written : r.meter.bytesAtLastReport ≤ s.writtenBytes
  fed : r.meter.bytesPerSecond = .fed r.samples
  shown : r.progress.bytesPerSecond = (Smoothed.fed r.samples).current
  samples : ∀ sample ∈ r.samples, 0 ≤ sample

variable {rs : ReedSolomon} {hello : Hello} {receiverId : ℕ} {r r' : Reporting} {s s' : Session}

theorem next_runs {now : ℕ} {b : Session.Branch} {sink : Sink} :
    (runs rs hello receiverId).next (now, b, sink) r = some r' ↔
      (¬ r.isOver ∧ r.session.Enabled now b) ∧ r.turn rs now b sink = .ok r' := by
  simp only [runs, Option.ite_none_right_eq_some, toOption_eq_some]

/-- Reports are no part of the session. -/
theorem turn_session {now : ℕ} {b : Session.Branch} {sink : Sink}
    (h : r.turn rs now b sink = .ok r') : r'.session = (r.session.turn rs now b sink).session ∧
      r'.isOver = (r.session.turn rs now b sink).ended.isSome := by
  obtain ⟨_, -, h⟩ := bind_ok_iff.mp h
  obtain ⟨_, -, h⟩ := bind_ok_iff.mp h
  rw [← Except.ok.inj h]
  exact ⟨rfl, rfl⟩

theorem reachable_session (h : Labelled.Reachable (runs rs hello receiverId) r)
    (hgoes : r.isOver = false) :
    Labelled.Reachable (Session.runs rs hello receiverId) r.session := by
  revert hgoes
  apply h.invariant (I := fun r => r.isOver = false →
    Labelled.Reachable (Session.runs rs hello receiverId) r.session)
  · rintro r ⟨now, hnew, -⟩ -
    exact .start ⟨now, hnew⟩
  · rintro ⟨now, b, sink⟩ r r' _ hr hnext hgoes
    obtain ⟨⟨hgoing, henabled⟩, hturn⟩ := next_runs.mp hnext
    obtain ⟨hsession, hended⟩ := turn_session hturn
    have hopen : (r.session.turn rs now b sink).ended.isNone := by
      rw [← Option.not_isSome, ← hended, hgoes]
      rfl
    have hstep : (Session.runs rs hello receiverId).next (now, b, sink) r.session =
        some r'.session := by
      rw [hsession]
      exact if_pos ⟨henabled, hopen⟩
    exact (hr (by simpa using hgoing)).step trivial hstep

theorem Metered.later (h : r.Metered s) (hs : s.writtenBytes ≤ s'.writtenBytes) : r.Metered s' :=
  ⟨h.written.trans hs, h.fed, h.shown, h.samples⟩

/-- What has been shown and taken after a report. -/
def reported (r : Reporting) (s : Session) (now : ℕ) : Reporting :=
  let samples := r.samples ++ r.meter.sample s now
  { r with
    meter := ⟨r.meter.announcedBytes, s.writtenBytes, now, .fed samples⟩
    progress := s.shown r.meter (Smoothed.fed samples).current now
    samples := samples }

theorem Metered.report_eq (h : r.Metered s) (now : ℕ) :
    r.report s now = .ok (r.reported s now) := by
  unfold Reporting.report
  rw [Session.reportProgress_eq h.fed h.written, ok_bind]
  rfl

theorem Metered.report (h : r.Metered s) (now : ℕ) :
    ∃ r', r.report s now = .ok r' ∧ r'.Metered s := by
  refine ⟨_, h.report_eq now, le_rfl, rfl, rfl, ?_⟩
  unfold reported
  rw [List.forall_mem_append]
  exact ⟨h.samples, Session.Meter.sample_nonneg⟩

theorem Metered.reportIf (h : r.Metered s) (now : ℕ) (c : Prop) [Decidable c] :
    ∃ r', r.reportIf c s now = .ok r' ∧ r'.Metered s := by
  unfold Reporting.reportIf
  split_ifs
  · exact h.report now
  · exact ⟨r, rfl, h⟩

/-- No turn dies of its reports. -/
theorem Metered.turn (h : r.Metered r.session) (now : ℕ) (b : Session.Branch) (sink : Sink) :
    ∃ r', r.turn rs now b sink = .ok r' ∧ r'.Metered r'.session := by
  have hbranch := h.later (Session.branch_written r.session now b).ge
  obtain ⟨r₁, hfirst, h₁⟩ := hbranch.reportIf now (b = .statsTick)
  have hguard : r₁.Metered (r.session.beforeGuard rs now b sink).session.sendStats.session :=
    h₁.later ((Session.branch_written r.session now b).le.trans
      (Session.beforeGuard_written r.session now b sink))
  obtain ⟨r₂, hlast, h₂⟩ := hguard.reportIf now
    ((r.session.beforeGuard rs now b sink).ended.isNone ∧
      ¬ (r.session.beforeGuard rs now b sink).session.Running ∧
      (r.session.beforeGuard rs now b sink).session.checkByteTotal.isOk)
  have hturn : r₂.Metered (r.session.turn rs now b sink).session :=
    h₂.later (Session.turn_written r.session now b sink).ge
  unfold Reporting.turn
  dsimp only
  rw [hfirst, ok_bind, hlast, ok_bind]
  exact ⟨_, rfl, hturn.written, hturn.fed, hturn.shown, hturn.samples⟩

theorem metered_of_reachable (h : Labelled.Reachable (runs rs hello receiverId) r) :
    r.Metered r.session := by
  apply h.invariant (I := fun r => r.Metered r.session)
  · rintro r ⟨now, hnew, hmeter, hprogress, hsamples, -⟩
    constructor
    · rw [hmeter]
      exact Nat.zero_le _
    · rw [hmeter, hsamples]
      rfl
    · rw [hprogress, hsamples]
      rfl
    · rw [hsamples]
      nofun
  · rintro ⟨now, b, sink⟩ r r' _ hr hnext
    obtain ⟨-, hturn⟩ := next_runs.mp hnext
    obtain ⟨r₁, hturn', h₁⟩ := hr.turn now b sink
    rw [Except.ok.inj (hturn.symm.trans hturn')]
    exact h₁

/-- However a session goes, and whenever it reports: the estimate it shows is a time, or unknown,
exactly when the samples it has taken allow for one. -/
theorem eta_sound_iff (h : Labelled.Reachable (runs rs hello receiverId) r) :
    r.progress.eta.Sound ↔
      Estimable r.progress.announcedBytes r.progress.receivedBytes r.samples := by
  have hmetered := metered_of_reachable h
  rw [ReceiveState.eta, hmetered.shown]
  exact Scuttlecast.eta_sound_iff hmetered.samples

section Stall

/-- A sink that is full takes nothing, and nothing joins what waits for it. -/
theorem handOver_full (rs : ReedSolomon) (hpending : s.pending ≠ []) (now : ℕ) :
    ∃ stall naks, s.handOver rs ⟨0, false⟩ now =
      { session := { s with sinkStall := stall, lastHandover := now, naks := naks } } := by
  have hrefill : ({ s with
      sinkStall := s.sinkStall + if s.pending = [] then 0 else now - s.lastHandover
      lastHandover := now } : Session).refill rs = .ok _ := if_neg hpending
  unfold Session.handOver
  dsimp only
  rw [hrefill]
  refine ⟨s.sinkStall + if s.pending = [] then 0 else now - s.lastHandover,
    s.naks.forgetBelow s.assembler.nextNeeded, ?_⟩
  simp

/-- The tick of the statistics passes over such a sink, and the session goes on. -/
theorem turn_full (rs : ReedSolomon) (hpending : s.pending ≠ []) (now : ℕ) :
    (s.beforeGuard rs now .statsTick ⟨0, false⟩).session.Running ∧
      ∃ stall naks sent, s.turn rs now .statsTick ⟨0, false⟩ =
        { session := { s with sinkStall := stall, lastHandover := now, naks := naks }
          sent := sent } := by
  have hfull : (s.branch now .statsTick).session.pending ≠ [] := hpending
  obtain ⟨stall, naks, heq⟩ := handOver_full rs hfull now
  have hguard : s.beforeGuard rs now .statsTick ⟨0, false⟩ =
      { session := { s with sinkStall := stall, lastHandover := now, naks := naks }
        sent := s.sendStats.sent ++ [] } := by
    unfold Session.beforeGuard
    rw [Outcome.andThen_of_running rfl, heq]
    rfl
  have hrun : (s.beforeGuard rs now .statsTick ⟨0, false⟩).session.Running := by
    rw [hguard]
    exact .inr hpending
  refine ⟨hrun, stall, naks, s.sendStats.sent ++ [] ++ [], ?_⟩
  show (s.beforeGuard rs now .statsTick ⟨0, false⟩).andThen _ = _
  rw [Outcome.andThen_of_running (by rw [hguard]), if_pos hrun, hguard]
  rfl

/-- The session goes on before a full sink, and knows the size of the input. -/
structure Blocked (size : ℕ) (r : Reporting) : Prop where
  going : r.isOver = false
  pending : r.session.pending ≠ []
  known : r.session.totalBytes.or r.meter.announcedBytes = some size

/-- Such a session has reported, and written nothing since. -/
structure Stalled (size : ℕ) (r : Reporting) : Prop extends r.Blocked size where
  metered : r.Metered r.session
  seen : r.meter.bytesAtLastReport = r.session.writtenBytes
  announced : r.progress.announcedBytes = some size
  received : r.progress.receivedBytes = r.session.writtenBytes

variable {size : ℕ}

/-- Its next report takes one sample, and nothing is written meanwhile. -/
theorem Blocked.tick (h : r.Blocked size) (hm : r.Metered r.session) :
    ∃ r', (runs rs hello receiverId).next
        (r.meter.lastReport + statsInterval, .statsTick, ⟨0, false⟩) r = some r' ∧
      r'.Stalled size ∧ r'.session.writtenBytes = r.session.writtenBytes ∧
      r'.samples = r.samples ++
        [((r.session.writtenBytes - r.meter.bytesAtLastReport : ℕ) : ℚ) /
          seconds statsInterval] := by
  set now := r.meter.lastReport + statsInterval with hnow
  obtain ⟨hrun, stall, naks, sent, hturn⟩ := turn_full rs h.pending now
  have hbranch := hm.later (Session.branch_written r.session now .statsTick).ge
  have heq : r.turn rs now .statsTick ⟨0, false⟩ =
      .ok { r.reported (r.session.branch now .statsTick).session now with
        session := { r.session with sinkStall := stall, lastHandover := now, naks := naks }
        isOver := false } := by
    unfold Reporting.turn Reporting.reportIf
    dsimp only
    rw [if_pos rfl, hbranch.report_eq, ok_bind, if_neg fun hends => hends.2.1 hrun, ok_bind, hturn]
    rfl
  have hnext : (runs rs hello receiverId).next (now, .statsTick, ⟨0, false⟩) r = some _ :=
    next_runs.mpr ⟨⟨by simp [h.going], trivial⟩, heq⟩
  have hsample : r.meter.sample (r.session.branch now .statsTick).session now =
      [((r.session.writtenBytes - r.meter.bytesAtLastReport : ℕ) : ℚ) /
        seconds statsInterval] := by
    have hsince : now - r.meter.lastReport = statsInterval := Nat.add_sub_cancel_left ..
    unfold Session.Meter.sample
    rw [hsince, Session.branch_written, if_pos (by norm_num [seconds])]
  obtain ⟨r₁, hturn₁, h₁⟩ := hm.turn now .statsTick ⟨0, false⟩
  obtain rfl := Except.ok.inj (heq.symm.trans hturn₁)
  refine ⟨_, hnext, ⟨⟨rfl, h.pending, h.known⟩, h₁, rfl, h.known, rfl⟩, rfl, ?_⟩
  show r.samples ++ _ = _
  rw [hsample]

/-- From then on every report takes a zero. -/
theorem Stalled.reports (h : r.Stalled size) (n : ℕ) :
    Labelled.CanReach (runs rs hello receiverId) (fun r' => r'.Stalled size ∧
      r'.session.writtenBytes = r.session.writtenBytes ∧
        r'.samples = r.samples ++ List.replicate n 0) r := by
  induction n generalizing r with
  | zero => exact .here ⟨h, rfl, (List.append_nil _).symm⟩
  | succ n ih =>
    obtain ⟨r', hnext, hstalled, hwritten, hsamples⟩ := h.toBlocked.tick h.metered
    rw [h.seen, Nat.sub_self, Nat.cast_zero, zero_div] at hsamples
    have hrest := (ih hstalled).step hnext
    rw [hwritten, hsamples, List.append_assoc] at hrest
    exact hrest

/-- Wherever a session that has taken bytes meets a full sink before the end of an input of known
size, it can stand there until it shows an estimate that cannot be printed. -/
theorem can_stall (h : Labelled.Reachable (runs rs hello receiverId) r)
    (hblocked : r.Blocked size) (hleft : r.session.writtenBytes < size)
    (hmoved : ∃ sample ∈ r.samples, sample ≠ 0) :
    Labelled.CanReach (runs rs hello receiverId) (fun r => ¬ r.progress.eta.Sound) r := by
  obtain ⟨r₁, hnext, hstalled, hwritten, hsamples⟩ := hblocked.tick (metered_of_reachable h)
  obtain ⟨sample, hsample, hne⟩ := hmoved
  have hmoved₁ : ∃ sample ∈ r₁.samples, sample ≠ 0 :=
    ⟨sample, by rw [hsamples]; exact List.mem_append_left _ hsample, hne⟩
  obtain ⟨n, hn⟩ := exists_stall (hwritten ▸ hleft) hstalled.metered.samples hmoved₁
  obtain ⟨actions, r₂, hexec, hstalled₂, hwritten₂, hsamples₂⟩ := hstalled.reports n
  refine .step hnext ⟨actions, r₂, hexec, ?_⟩
  show ¬ r₂.progress.eta.Sound
  rw [ReceiveState.eta, hstalled₂.announced, hstalled₂.received, hstalled₂.metered.shown,
    hwritten₂, hsamples₂]
  exact mt (hn n).mp (lt_irrefl n)

end Stall

end Reporting
end Scuttlecast
