import Scuttlecast.Soundness
import Scuttlecast.Interpolated
import Scuttlecast.Receiver.Work
import Scuttlecast.Receiver.Repair

/-! A full window and silence: the receivers ask only for what they have heard of, and the slicer
sends nothing new until one of them gets on. When every shard that would have told them is lost,
nobody can move. -/
namespace Scuttlecast

namespace Assembler

variable {rs : ReedSolomon} {L : Ledger} {a : Assembler} {s : Slice} {k target : ℕ}

/-- A slice short of its target lacks one of the data slots below it. -/
theorem Slice.wanted_eq_nil {g : Geometry} (hs : s.Wf g) (ht : target ≤ g.blocksPerSlice)
    (hshort : s.received < target) : s.wanted target ≠ [] := by
  intro hnil
  have hlen := hs.length
  have hcount := s.below_add_above target
  rw [← hs.received] at hcount
  have hnone : (s.slots.zipIdx.take target).filter (fun e => e.1.isNone) = [] := by
    have htake := List.take_eq_nil_iff.mp hnil
    exact List.map_eq_nil_iff.mp (htake.resolve_left (by omega))
  have hpresent : s.dataPresent target := by
    rw [Slice.dataPresent, List.all_eq_true]
    intro held hheld
    obtain ⟨i, hi⟩ := List.mem_iff_getElem?.mp hheld
    have hmem : (held, i) ∈ s.slots.zipIdx.take target := by
      rw [List.mem_iff_getElem?]
      refine ⟨i, ?_⟩
      rw [List.getElem?_take] at hi ⊢
      split_ifs at hi ⊢
      simp [List.getElem?_zipIdx, hi]
    have hnot := List.filter_eq_nil_iff.mp hnone _ hmem
    simpa [Option.isSome_iff_ne_none] using hnot
  rw [Slice.dataPresent_iff_below (by omega)] at hpresent
  omega

/-- Without a total, nothing is asked for exactly where everything heard of is complete. -/
theorem Wf.gaps_nil_iff (h : a.Wf) (htotal : a.totalBlocks = none) (floor : ℕ) :
    (∀ gap ∈ a.gaps floor, gap.2 = []) ↔
      ∀ k, a.nextNeeded ≤ k → k < floor → a.isComplete k := by
  have hpos := a.geometry.blocksPerSlice_pos
  have htarget (k : ℕ) : a.target k = a.geometry.blocksPerSlice := by rw [target, htotal]
  have hfloor : a.totalSlices = none := by rw [totalSlices, htotal]; rfl
  constructor
  · intro hgaps k hle hlt
    by_contra hopen
    have hmem : k ∈ (List.range' a.nextNeeded (floor - a.nextNeeded)).filter
        fun sliceNo => ¬ a.isComplete sliceNo :=
      List.mem_filter.mpr ⟨List.mem_range'_1.mpr (by omega), by simpa using hopen⟩
    have hnil := hgaps _ (by
      rw [gaps, hfloor]
      exact List.mem_map_of_mem hmem)
    rcases hs : a.slices.lookup k with _ | s
    · simp only [hs, htarget, List.range_eq_nil] at hnil
      omega
    · simp only [hs, htarget] at hnil
      refine Slice.wanted_eq_nil (h.wf k s hs) le_rfl ?_ hnil
      simpa [isComplete, hs, htarget] using hopen
  · intro hcomplete gap hgap
    rw [gaps, hfloor] at hgap
    obtain ⟨k, hk, rfl⟩ := List.mem_map.mp hgap
    obtain ⟨hrange, hopen⟩ := List.mem_filter.mp hk
    have hrange := List.mem_range'_1.mp hrange
    simp only [Option.getD_none] at hrange
    exact absurd (hcomplete k hrange.1 (by omega)) (by simpa using hopen)

end Assembler

namespace Session

variable {rs : ReedSolomon} {L : Ledger} {r : Reader} {s : Session}

/-- Nothing to give out and nothing to ask for. -/
def Still (rs : ReedSolomon) (s : Session) : Prop :=
  (∃ a, s.assembler.takeReady rs = .ok ([], a)) ∧
    ∀ gap ∈ s.assembler.gaps s.emitFloor, gap.2 = []

/-- The session lacks data of the slice it waits for, holds nothing of a later one, and has heard
of no later one either: of none past the slice it waits for, or of the next alone while parity
makes up for the data it lacks. -/
structure Unaware (s : Session) : Prop where
  later : ∀ k, s.assembler.nextNeeded < k → s.assembler.slices.lookup k = none
  data : ∃ slot < s.assembler.geometry.blocksPerSlice,
    s.assembler.has s.assembler.nextNeeded slot = false
  floor : s.emitFloor ≤ s.assembler.nextNeeded ∨
    s.emitFloor = s.assembler.nextNeeded + 1 ∧ s.assembler.isComplete s.assembler.nextNeeded

/-- All the data of a slice is held exactly where the slice has it present. -/
theorem dataPresent_iff_has {a : Assembler} (h : a.Wf) {k : ℕ} :
    (∃ slice, a.slices.lookup k = some slice ∧ slice.dataPresent a.geometry.blocksPerSlice) ↔
      ∀ slot < a.geometry.blocksPerSlice, a.has k slot := by
  have hpos := a.geometry.blocksPerSlice_pos
  constructor
  · rintro ⟨slice, hs, hpresent⟩ slot hslot
    have hlen := (h.wf k slice hs).length
    rw [Assembler.has, hs, Option.any_some]
    exact Assembler.Slice.dataPresent_iff.mp hpresent slot (by omega)
  · intro hall
    have hfirst := hall 0 hpos
    rcases hs : a.slices.lookup k with _ | slice
    · simp [Assembler.has, hs] at hfirst
    · refine ⟨slice, rfl, Assembler.Slice.dataPresent_iff.mpr fun i hi => ?_⟩
      have hheld := hall i (Nat.lt_min.mp hi).1
      rwa [Assembler.has, hs, Option.any_some] at hheld

/-- Without a total, and with a floor at every slice held, the session is still exactly where it is
unaware. -/
theorem Tracks.still_iff (h : s.Tracks rs L r) (htotal : s.assembler.totalBlocks = none)
    (hheard : ∀ k, (s.assembler.slices.lookup k).isSome → k ≤ s.emitFloor) :
    s.Still rs ↔ s.Unaware := by
  have hwf := h.assembler.toWf
  have hcomplete {k : ℕ} (hnone : s.assembler.slices.lookup k = none) :
      ¬ s.assembler.isComplete k := by
    simp [Assembler.isComplete, hnone]
  rw [Still, h.assembler.takeReady_nil_iff, hwf.gaps_nil_iff htotal, Assembler.Ready,
    Assembler.canWrite_iff, dataPresent_iff_has hwf, htotal]
  constructor
  · rintro ⟨hready, hall⟩
    have hlater : ∀ k, s.assembler.nextNeeded < k → s.assembler.slices.lookup k = none := by
      intro k hk
      by_contra hsome
      obtain ⟨slice, hs⟩ := Option.ne_none_iff_exists'.mp hsome
      have hfloor := hheard k (by rw [hs]; rfl)
      exact hready ⟨.inr (.inl ⟨k, slice, hk, hs⟩), hall _ le_rfl (by omega)⟩
    refine ⟨hlater, ?_, ?_⟩
    · by_contra hdata
      push Not at hdata
      have hheld : ∀ slot < s.assembler.geometry.blocksPerSlice,
          s.assembler.has s.assembler.nextNeeded slot := by
        intro slot hslot
        simpa using hdata slot hslot
      obtain ⟨slice, hs, hpresent⟩ := (dataPresent_iff_has hwf).mpr hheld
      have hslice := hwf.wf _ slice hs
      have hlen := hslice.length
      rw [Assembler.Slice.dataPresent_iff_below (by omega)] at hpresent
      have hcount := slice.below_add_above s.assembler.geometry.blocksPerSlice
      rw [← hslice.received] at hcount
      refine hready ⟨.inr (.inr hheld), ?_⟩
      have htarget := s.assembler.target_le s.assembler.nextNeeded
      simp only [Assembler.isComplete, hs, Option.any_some, decide_eq_true_eq]
      omega
    · by_cases hfloor : s.emitFloor ≤ s.assembler.nextNeeded
      · exact .inl hfloor
      · have hnext := hall _ le_rfl (Nat.lt_of_not_le hfloor)
        refine .inr ⟨?_, hnext⟩
        by_contra hne
        exact hcomplete (hlater (s.assembler.nextNeeded + 1) (by omega))
          (hall _ (by omega) (by omega))
  · rintro ⟨hlater, ⟨slot, hslot, hlacks⟩, hfloor⟩
    constructor
    · rintro ⟨hsome | ⟨k, slice, hk, hs⟩ | hheld, _⟩
      · simp at hsome
      · simp [hlater k hk] at hs
      · simp [hheld slot hslot] at hlacks
    · intro k hle hlt
      rcases hfloor with hfloor | ⟨hfloor, hnext⟩
      · omega
      · obtain rfl : k = s.assembler.nextNeeded := by omega
        exact hnext

end Session

namespace SlicerTask

variable {rs : ReedSolomon} {L : Ledger} {r : Reader} {t t' : SlicerTask}

/-- Nothing in the list ends the input. -/
abbrev NoEof (messages : List Outbound) : Prop := ∀ bytes blocks, .eof bytes blocks ∉ messages

/-- Every slice sealed so far was full. -/
abbrev SealsFull (t : SlicerTask) : Prop :=
  t.slicer.window.current.sliceNo * t.slicer.window.geometry.blocksPerSlice ≤ t.slicer.totalBlocks

/-- A read that does not drain the input sends no end of it, and seals only a full slice. -/
theorem Tracks.read_undrained (h : t.Tracks rs L r) (hr : t.read rs = some t')
    (hdrained : t'.drained = false) (hfull : t.SealsFull) :
    t.drained = false ∧ NoEof t'.todo ∧ t'.SealsFull := by
  obtain ⟨p, hs, hended, htodo, hundrained, hroom, hcase⟩ := h.read_cases hr
  refine ⟨hundrained, ?_⟩
  rcases hcase with ⟨block, _, hb, -, rfl⟩ | ⟨e, input, -, rfl⟩ | ⟨-, -, -, rfl⟩
  · rcases hpush : t.slicer.push rs block with e | ⟨s, messages⟩
    · exact ⟨by simp [SlicerTask.begin, htodo, NoEof], hfull⟩
    obtain ⟨L', hgrows, hs', -, tail, rfl, htail⟩ := hs.push hb hroom hpush
    have htotal := hs.totalBlocks
    have htotal' := hs'.totalBlocks
    rw [SealsFull, hs.geometry] at hfull
    rw [SealsFull]
    simp only [SlicerTask.begin, hs'.geometry, hgrows.geometry, NoEof]
    rcases htail with ⟨rfl, -, hcur⟩ | ⟨rfl, hcur, hend⟩
    · rw [hcur]
      exact ⟨by simp, by omega⟩
    · exact ⟨by simp [Slicer.parityMessages], by omega⟩
  · exact ⟨by simp [htodo, NoEof], hfull⟩
  · rcases hend : t.slicer.endInput rs <;> simp [hend, SlicerTask.begin] at hdrained

end SlicerTask

namespace World

variable {rs : ReedSolomon} {config : Config} {reader : Reader} {L : Ledger} {w w' : World}

/-- A full window over an input that is not drained, and silence: nothing queued, no shard in
flight to a participant and no report or request to the sender, every participant's report up to
date, and nothing that waits for a sink. -/
structure Idle (w : World) : Prop where
  undrained : w.task.drained = false
  full : w.task.slicer.window.isFull
  todo : w.task.todo = []
  outbound : w.outbound = []
  feedback : w.feedback = []
  stats : ∀ stats, .stats stats ∉ w.uplink
  naks : ∀ nak, .nak nak ∉ w.uplink
  air : ∀ r ∈ w.loop.group.participants, ∀ frame, .shard frame ∉ w.air r
  reported : ∀ r p, w.loop.group.participants.lookup r = some p →
    p.nextNeeded = (w.peers r).session.assembler.nextNeeded
  pending : ∀ r ∈ w.loop.group.participants, (w.peers r).session.pending = []

/-- Idle, and no participant has anything to give out or to ask for. -/
structure Stuck (rs : ReedSolomon) (w : World) : Prop where
  idle : w.Idle
  still : ∀ r ∈ w.loop.group.participants, (w.peers r).session.Still rs

/-- What holds until the input is drained: nobody is told where it ends. -/
structure Early (w : World) : Prop where
  todo : SlicerTask.NoEof w.task.todo
  outbound : SlicerTask.NoEof w.outbound
  draining : w.loop.draining = false
  air : ∀ r done, .control (.done done) ∉ w.air r
  totals : ∀ r, (w.peers r).session.assembler.totalBlocks = none
  full : w.task.SealsFull

/-- Every floor is at or above all the slices its session holds. -/
def Heard (w : World) : Prop := ∀ r k, ((w.peers r).session.assembler.slices.lookup k).isSome →
  k ≤ (w.peers r).session.emitFloor

theorem Delivers.given {r : ℕ} {b : Session.Branch} (h : w.Delivers r b) :
    b.Given fun i => i ∈ w.air r := by
  cases b with
  | packets arrivals => exact h
  | _ => trivial

theorem Heard.step (h : w.Heard) (hs : w.Sound rs config reader L) {a : Action}
    (hstep : Step rs a w w') : w'.Heard := by
  cases hstep with
  | turn r now branch sink hrun henabled hdelivers =>
    refine forall_peers_afterTurn (P := fun _ p =>
      ∀ k, (p.session.assembler.slices.lookup k).isSome → k ≤ p.session.emitFloor) ?_ fun r' _ => h r'
    apply (Session.turn_works rs (w.peers r).session now sink hdelivers.given).heard _ (h r)
    exact fun frame hf => (hs.air r _ hf).2.2.1
  | _ => exact h

theorem Early.afterLoop (h : w.Early) {o : LoopOutcome} (hdraining : o.loop.draining = false)
    (hmulticast : ∀ done, .control (.done done) ∉ o.multicast) : (w.afterLoop o).Early := by
  obtain ⟨verdict, heq⟩ := o.settle_eq
  unfold World.afterLoop
  rw [heq]
  refine ⟨h.todo, h.outbound, hdraining, fun r done hi => ?_, h.totals, h.full⟩
  rcases List.mem_append.mp hi with hi | hi
  · exact h.air r done hi
  · exact hmulticast done hi

theorem Early.tick (h : w.Early) (now : ℕ) (idle : Bool) (wanted : ℕ) :
    (w.afterLoop (w.loop.tick now idle wanted)).Early := by
  refine h.afterLoop h.draining fun done hi => ?_
  rcases SendLoop.mem_tick_multicast hi with ⟨evicted, heq⟩ | ⟨hdraining, -⟩ | heq
  · cases heq
  · rw [h.draining] at hdraining
    cases hdraining
  · cases heq

theorem Early.turn (h : w.Early) {r : ℕ} {b : Session.Branch} (hdelivers : w.Delivers r b)
    (now : ℕ) (sink : Sink) :
    (w.afterTurn r ((w.peers r).session.turn rs now b sink)).Early := by
  refine ⟨h.todo, h.outbound, h.draining, h.air,
    forall_peers_afterTurn (P := fun _ p => p.session.assembler.totalBlocks = none) ?_
      fun r' _ => h.totals r',
    h.full⟩
  exact ((Session.turn_works rs (w.peers r).session now sink hdelivers.given).total
    (h.air r)).trans (h.totals r)

theorem Early.step (h : w.task.drained = false → w.Early) (hs : w.Sound rs config reader L)
    {a : Action} (hstep : Step rs a w w') (hdrained : w'.task.drained = false) : w'.Early := by
  cases hstep with
  | @read _ task hread =>
    by_cases hbefore : w.task.drained = false
    · have h := h hbefore
      obtain ⟨-, htodo, hfull⟩ := hs.task.read_undrained hread hdrained h.full
      exact ⟨htodo, h.outbound, h.draining, h.air, h.totals, hfull⟩
    · unfold SlicerTask.read at hread
      rw [if_neg (by simp_all)] at hread
      simp at hread
  | @feedback _ message rest hselect hfeedback =>
    have hbefore : w.task.drained = false := by cases message <;> exact hdrained
    have h := h hbefore
    refine ⟨?_, h.outbound, h.draining, h.air, h.totals, ?_⟩
    · cases message with
      | resend sliceNo blocks =>
        intro bytes count hmem
        obtain ⟨_, _, _, -, -, heq⟩ := Slicer.mem_resend hmem
        cases heq
      | _ => exact h.todo
    · cases message <;> exact h.full
  | @queue _ message rest hrun htodo hroom =>
    have h := h hdrained
    refine ⟨fun b n hm => h.todo b n (htodo ▸ List.mem_cons_of_mem _ hm), fun b n hm => ?_,
      h.draining, h.air, h.totals, h.full⟩
    rcases List.mem_append.mp hm with hm | hm
    · exact h.outbound b n hm
    · rw [List.mem_singleton] at hm
      exact h.todo b n (htodo ▸ hm ▸ List.mem_cons_self)
  | @egress _ message rest now hrun hout =>
    have h := h hdrained
    have hrest : Early { w with outbound := rest } :=
      ⟨h.todo, fun b n hm => h.outbound b n (hout ▸ List.mem_cons_of_mem _ hm), h.draining, h.air,
        h.totals, h.full⟩
    cases message with
    | shard k slot width floor payload =>
      exact hrest.afterLoop h.draining fun done hm => by simp [SendLoop.egress] at hm
    | eof bytes blocks => exact absurd (hout ▸ List.mem_cons_self) (h.outbound bytes blocks)
  | egressClosed hrun hempty hended =>
    exact (h hdrained).afterLoop (h hdrained).draining fun done hm => by cases hm
  | tick now idle wanted hrun => exact (h hdrained).tick now idle wanted
  | deadline now hrun hdue =>
    exact (h hdrained).afterLoop (h hdrained).draining fun done hm => by cases hm
  | control now message hrun hmem =>
    obtain ⟨group, feedback, heq⟩ := control_cases w.loop now message
    rw [heq]
    exact (h hdrained).afterLoop (h hdrained).draining fun done hm => by cases hm
  | turn r now branch sink hrun henabled hdelivers => exact (h hdrained).turn hdelivers now sink
  | loseDown _ r arrival =>
    have h := h hdrained
    exact ⟨h.todo, h.outbound, h.draining, fun r' done hi => h.air r' done (mem_air_of_lost hi),
      h.totals, h.full⟩
  | loseUp _ message =>
    have h := h hdrained
    exact ⟨h.todo, h.outbound, h.draining, h.air, h.totals, h.full⟩

/-- What every run has led to: nothing false is said, floors are at what is held, and until the
input is drained nobody knows its end. -/
theorem heard_of_reachable (h : Labelled.Reachable (system rs config reader) w) :
    w.Heard ∧ (w.task.drained = false → w.Early) := by
  refine Labelled.Reach.invariant_on (J := fun w => ∃ L, w.Sound rs config reader L)
    (I := fun w => w.Heard ∧ (w.task.drained = false → w.Early))
    (fun _ h => sound_of_reachable h) ?_ ?_ h
  · rintro w ⟨gathered, now, hstart⟩
    obtain ⟨_, slicer, assembler, hslicer, hassembler, rfl⟩ := start_eq_ok hstart
    obtain ⟨_, _, hslices, _, htotal, _⟩ := Assembler.new_wf hassembler
    refine ⟨fun r k hk => ?_, fun _ => ⟨by simp [SlicerTask.NoEof], by simp [SlicerTask.NoEof], rfl,
      by simp, fun r => htotal, ?_⟩⟩
    · simp [Session.fresh, hslices] at hk
    · obtain ⟨window, hwindow, hs⟩ := bind_ok_iff.mp hslicer
      rw [← Except.ok.inj hs, SlicerTask.SealsFull, (Window.new_window hwindow).2.2]
      simp [Window.Slice.empty]
  · rintro a w w' - ⟨L, hsound⟩ - ⟨hheard, hearly⟩ hnext
    have hstep := step_of_next hnext
    exact ⟨hheard.step hsound hstep, fun hd => Early.step hearly hsound hstep hd⟩

/-- A reachable state is stuck exactly where it is idle and every participant unaware. -/
theorem stuck_iff_unaware (h : Labelled.Reachable (system rs config reader) w) :
    w.Stuck rs ↔ w.Idle ∧ ∀ r ∈ w.loop.group.participants, (w.peers r).session.Unaware := by
  obtain ⟨L, hs⟩ := sound_of_reachable h
  obtain ⟨hheard, hearly⟩ := heard_of_reachable h
  have hiff (hidle : w.Idle) (r : ℕ) :
      (w.peers r).session.Still rs ↔ (w.peers r).session.Unaware :=
    (hs.peers r).tracks.still_iff ((hearly hidle.undrained).totals r) (hheard r)
  constructor
  · rintro ⟨hidle, hstill⟩
    exact ⟨hidle, fun r hr => (hiff hidle r).mp (hstill r hr)⟩
  · rintro ⟨hidle, hunaware⟩
    exact ⟨hidle, fun r hr => (hiff hidle r).mpr (hunaware r hr)⟩

/-- A window that fills before the input is drained holds as many full slices as it may. -/
theorem length_of_full (h : Labelled.Reachable (system rs config reader) w)
    (hundrained : w.task.drained = false) (hfull : w.task.slicer.window.isFull) :
    config.geometry.maxLiveSlices * config.geometry.blocksPerSlice ≤
      (reader.blocks config.geometry).length := by
  obtain ⟨L, hs⟩ := sound_of_reachable h
  have hearly := (heard_of_reachable h).2 hundrained
  obtain ⟨p, hp, _⟩ := hs.task.slicer
  have hlen := congrArg List.length hp.blocks
  rw [List.length_map, hs.geometry] at hlen
  have hseals := hearly.full
  rw [SlicerTask.SealsFull, hp.totalBlocks, hp.geometry, hs.geometry] at hseals
  have hlive : config.geometry.maxLiveSlices ≤ w.task.slicer.window.current.sliceNo := by
    have hfull : w.task.slicer.window.geometry.maxLiveSlices ≤
        w.task.slicer.window.live.length := by simpa [Window.isFull] using hfull
    rw [hp.geometry, hs.geometry] at hfull
    exact hfull.trans hp.window.live_le
  have hpushed := hp.window.pushed_le
  exact ((Nat.mul_le_mul_right _ hlive).trans hseals).trans (hpushed.trans hlen.le)

end World

end Scuttlecast
