import Scuttlecast.Estimate
import Scuttlecast.Library.Labelled
import Scuttlecast.Sender.Attendance

/-! What the send loop shows of its progress: every tick takes the data blocks sent since the tick
before for a sample of its rate. -/
namespace Scuttlecast

/-- The variables of `send_stream` that only its ticks report from. -/
structure SendMeter where
  blocksSent : ℕ
  blocksAtLastTick : ℕ
  blocksPerSecond : Smoothed
  started : ℕ
  lastTick : ℕ
  slicesEmitted : ℕ

namespace SendMeter

def new (now : ℕ) : SendMeter := ⟨0, 0, .default, now, now, 0⟩

/-- Repairs of data blocks are counted again, parity is not. -/
def sent (m : SendMeter) (g : Geometry) : Outbound → SendMeter
  | .shard _ slot _ emitFloor _ =>
    { m with
      blocksSent := if slot < g.blocksPerSlice then m.blocksSent + 1 else m.blocksSent
      slicesEmitted := max m.slicesEmitted emitFloor }
  | .eof _ _ => m

/-- The rate since the last tick; a clock that has not moved leaves the one of before. -/
def achievedRate (m : SendMeter) (sentThisTick now : ℕ) : ℚ :=
  let sinceLastTick := seconds (now - m.lastTick)
  if 0 < sinceLastTick then sentThisTick / sinceLastTick else m.blocksPerSecond.current

/-- What a tick makes of the meter, with the rate it shows. -/
def tick (m : SendMeter) (now : ℕ) : Except Panic (ℚ × SendMeter) := do
  let sentThisTick ← subChecked 64 m.blocksSent m.blocksAtLastTick
  let (rate, blocksPerSecond) := m.blocksPerSecond.observe (m.achievedRate sentThisTick now)
  .ok (rate, { m with
    blocksAtLastTick := m.blocksSent
    lastTick := now
    blocksPerSecond := blocksPerSecond })

end SendMeter

/-- The send loop with its meter, what it has shown last, the samples taken so far, and those
behind the rate that is shown. -/
structure Ticking where
  loop : SendLoop
  meter : SendMeter
  progress : TransferState
  samples : List ℚ
  shown : List ℚ

namespace Ticking

def tick (t : Ticking) (now wanted : ℕ) : Except Panic Ticking := do
  let (rate, meter) ← t.meter.tick now
  let samples := t.samples ++
    [t.meter.achievedRate (t.meter.blocksSent - t.meter.blocksAtLastTick) now]
  .ok { t with
    meter := meter
    progress :=
      { blockSize := t.loop.config.geometry.blockSize
        transferId := t.loop.config.transferId
        blocksPerSecond := rate
        blocksSent := meter.blocksSent
        slicesEmitted := meter.slicesEmitted
        parityShards := wanted
        totalBlocks := if t.loop.draining then some t.loop.totalBlocks else none
        announcedBytes := t.loop.config.announcedBytes
        draining := t.loop.draining
        elapsed := now - meter.started }
    samples := samples
    shown := samples }

def branch (t : Ticking) : SendLoop.Event → Except Panic Ticking
  | .egress _ message => .ok { t with meter := t.meter.sent t.loop.config.geometry message }
  | .tick now _ wanted => t.tick now wanted
  | _ => .ok t

/-- Once the loop is over, the counts are shown as they stand. -/
def finish (t : Ticking) (now : ℕ) : Ticking :=
  { t with progress := { t.progress with
      transferId := t.loop.config.transferId
      blockSize := t.loop.config.geometry.blockSize
      blocksSent := t.meter.blocksSent
      slicesEmitted := t.meter.slicesEmitted
      announcedBytes := t.loop.config.announcedBytes
      totalBlocks := if t.loop.draining then some t.loop.totalBlocks else none
      draining := t.loop.draining
      elapsed := now - t.meter.started } }

/-- What the loop takes up, and back to its top or out of it. -/
def event (t : Ticking) (e : SendLoop.Event) (now : ℕ) : Except Panic Ticking := do
  let t ← t.branch e
  let t := { t with loop := (t.loop.branch e).settle.loop }
  .ok (if t.loop.verdict.isSome then t.finish now else t)

/-- A tick is idle when no data block has been sent since the last one. -/
def Idle (t : Ticking) : SendLoop.Event → Prop
  | .tick _ idle _ => idle = decide (t.meter.blocksSent = t.meter.blocksAtLastTick)
  | _ => True

instance (t : Ticking) (e : SendLoop.Event) : Decidable (t.Idle e) :=
  match e with
  | .tick _ idle _ =>
    inferInstanceAs (Decidable (idle = decide (t.meter.blocksSent = t.meter.blocksAtLastTick)))
  | .egress .. | .egressClosed | .deadline _ | .control .. => .isTrue trivial

/-- The runs of the loop with what it shows. What is shown at the start may be left over from a
transfer before. -/
def runs (config : Config) (gathered : List Message) :
    Labelled.System Ticking (SendLoop.Event × ℕ) where
  init t := (SendLoop.loops config gathered).init t.loop ∧ (∃ now, t.meter = .new now) ∧
    t.samples = [] ∧ t.progress.blocksPerSecond = (Smoothed.fed t.shown).current ∧
      ∀ sample ∈ t.shown, 0 ≤ sample
  next e t :=
    if t.loop.verdict.isNone ∧ t.loop.Due e.1 ∧ t.Idle e.1 then (t.event e.1 e.2).toOption
    else none

/-- The loop counts up, and the rates it has taken, and those it shows, are none below zero. -/
structure Metered (t : Ticking) : Prop where
  counted : t.meter.blocksAtLastTick ≤ t.meter.blocksSent
  fed : t.meter.blocksPerSecond = .fed t.samples
  rate : t.progress.blocksPerSecond = (Smoothed.fed t.shown).current
  samples : ∀ sample ∈ t.samples, 0 ≤ sample
  shown : ∀ sample ∈ t.shown, 0 ≤ sample

variable {config : Config} {gathered : List Message} {t t' : Ticking}

theorem next_runs {e : SendLoop.Event} {now : ℕ} :
    (runs config gathered).next (e, now) t = some t' ↔
      (t.loop.verdict.isNone ∧ t.loop.Due e ∧ t.Idle e) ∧ t.event e now = .ok t' := by
  simp only [runs, Option.ite_none_right_eq_some, toOption_eq_some]

/-- What is shown is no part of the loop. -/
theorem event_loop {e : SendLoop.Event} {now : ℕ} (h : t.event e now = .ok t') :
    t'.loop = (t.loop.branch e).settle.loop := by
  obtain ⟨t₁, hbranch, h⟩ := bind_ok_iff.mp h
  have hloop : t₁.loop = t.loop := by
    cases e with
    | tick now idle wanted =>
      obtain ⟨_, -, htick⟩ := bind_ok_iff.mp hbranch
      rw [← Except.ok.inj htick]
    | _ => rw [← Except.ok.inj hbranch]
  rw [← hloop, ← Except.ok.inj h]
  split_ifs <;> rfl

theorem reachable_loop (h : Labelled.Reachable (runs config gathered) t) :
    Labelled.Reachable (SendLoop.loops config gathered) t.loop := by
  apply h.invariant (I := fun t => Labelled.Reachable (SendLoop.loops config gathered) t.loop)
  · rintro t ⟨hinit, -⟩
    exact .start hinit
  · rintro ⟨e, now⟩ t t' _ ht hnext
    obtain ⟨⟨hopen, hdue, -⟩, hevent⟩ := next_runs.mp hnext
    have hstep : (SendLoop.loops config gathered).next e t.loop = some t'.loop := by
      rw [event_loop hevent]
      exact if_pos ⟨hopen, hdue⟩
    exact ht.step trivial hstep

theorem Metered.achievedRate_nonneg (h : t.Metered) (sentThisTick now : ℕ) :
    0 ≤ t.meter.achievedRate sentThisTick now := by
  unfold SendMeter.achievedRate
  dsimp only
  split_ifs with hmoved
  · exact div_nonneg (Nat.cast_nonneg _) hmoved.le
  · rw [h.fed]
    exact Smoothed.current_fed_nonneg h.samples

/-- A tick shows the smoothed rate of all samples, its own included. -/
theorem Metered.tick (h : t.Metered) (now wanted : ℕ) :
    ∃ t', t.tick now wanted = .ok t' ∧ t'.Metered := by
  unfold Ticking.tick SendMeter.tick
  rw [subChecked_of_le h.counted, ok_bind, ok_bind]
  have hsamples : ∀ sample ∈ t.samples ++
      [t.meter.achievedRate (t.meter.blocksSent - t.meter.blocksAtLastTick) now], 0 ≤ sample := by
    rw [List.forall_mem_append, List.forall_mem_singleton]
    exact ⟨h.samples, h.achievedRate_nonneg _ now⟩
  refine ⟨_, rfl, le_rfl, ?_, ?_, hsamples, hsamples⟩
  · rw [Smoothed.fed_concat, ← h.fed]
  · rw [Smoothed.fed_concat, ← h.fed]
    rfl

theorem Metered.branch (h : t.Metered) (e : SendLoop.Event) :
    ∃ t', t.branch e = .ok t' ∧ t'.Metered := by
  cases e with
  | tick now idle wanted => exact h.tick now wanted
  | egress now message =>
    refine ⟨_, rfl, ?_, ?_, h.rate, h.samples, h.shown⟩
    · cases message with
      | eof => exact h.counted
      | shard =>
        dsimp only [SendMeter.sent]
        split_ifs
        · exact h.counted.trans (Nat.le_succ _)
        · exact h.counted
    · cases message <;> exact h.fed
  | _ => exact ⟨t, rfl, h⟩

/-- No turn of the loop dies of what it shows. -/
theorem Metered.event (h : t.Metered) (e : SendLoop.Event) (now : ℕ) :
    ∃ t', t.event e now = .ok t' ∧ t'.Metered := by
  obtain ⟨t₁, hbranch, h₁⟩ := h.branch e
  unfold Ticking.event
  rw [hbranch, ok_bind]
  refine ⟨_, rfl, ?_⟩
  split_ifs
  · exact ⟨h₁.counted, h₁.fed, h₁.rate, h₁.samples, h₁.shown⟩
  · exact ⟨h₁.counted, h₁.fed, h₁.rate, h₁.samples, h₁.shown⟩

theorem metered_of_reachable (h : Labelled.Reachable (runs config gathered) t) : t.Metered := by
  apply h.invariant
  · rintro t ⟨-, ⟨now, hmeter⟩, hsamples, hrate, hshown⟩
    refine ⟨?_, ?_, hrate, ?_, hshown⟩
    · rw [hmeter]
      exact le_rfl
    · rw [hmeter, hsamples]
      rfl
    · rw [hsamples]
      nofun
  · rintro ⟨e, now⟩ t t' _ ht hnext
    obtain ⟨-, hevent⟩ := next_runs.mp hnext
    obtain ⟨t₁, hevent', h₁⟩ := ht.event e now
    rw [Except.ok.inj (hevent.symm.trans hevent')]
    exact h₁

/-- The rate in bytes is the smoothed one of the samples in bytes. -/
theorem eta_sound_iff (h : Labelled.Reachable (runs config gathered) t) {eta : Eta}
    (heta : t.progress.eta = .ok eta) : eta.Sound ↔
      Estimable t.progress.announcedBytes (t.progress.blocksSent * t.progress.blockSize)
        (t.shown.map (· * (t.progress.blockSize : ℚ))) := by
  have hmetered := metered_of_reachable h
  have hbytes : t.progress.bytesPerSecond =
      (Smoothed.fed (t.shown.map (· * (t.progress.blockSize : ℚ)))).current := by
    rw [TransferState.bytesPerSecond, hmetered.rate, Smoothed.current_fed, Smoothed.current_fed,
      Smoothing.mean_map_mul]
  have hsamples : ∀ sample ∈ t.shown.map (· * (t.progress.blockSize : ℚ)), 0 ≤ sample := by
    intro sample hsample
    obtain ⟨x, hx, rfl⟩ := List.mem_map.mp hsample
    exact mul_nonneg (hmetered.shown x hx) (Nat.cast_nonneg _)
  obtain ⟨done, hdone, heq⟩ := bind_ok_iff.mp heta
  obtain ⟨-, rfl⟩ := mulChecked_eq_ok.mp hdone
  rw [← Except.ok.inj heq, hbytes]
  exact Scuttlecast.eta_sound_iff hsamples

end Ticking
end Scuttlecast
