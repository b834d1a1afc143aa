import Scuttlecast.Transfer
import Scuttlecast.Receiver.Delivery

/-! Nothing false is ever said: in every state of every run, whatever is queued or in flight is
the ledger's, and every session has taken in nothing else. -/
namespace Scuttlecast

/-- A receiver that has been told nothing false, with what went to its sink. -/
abbrev Peer.Sound (rs : ReedSolomon) (L : Ledger) (reader : Reader) (p : Peer) : Prop :=
  Session.Kept rs L reader [] { session := p.session, handed := p.sunk, ended := p.ended }

namespace World

variable {rs : ReedSolomon} {config : Config} {reader : Reader} {L L' : Ledger} {w w' : World}

structure Sound (rs : ReedSolomon) (config : Config) (reader : Reader) (L : Ledger) (w : World) :
    Prop where
  geometry : L.geometry = config.geometry
  config : w.loop.config = config
  task : w.task.Tracks rs L reader
  emitted : ∀ m ∈ w.emitted, Slicer.Honest rs L reader m
  outbound : ∀ m ∈ w.outbound, m ∈ w.emitted
  totals : w.loop.draining →
    Slicer.Honest rs L reader (.eof w.loop.totalBytes w.loop.totalBlocks)
  air : ∀ r, ∀ i ∈ w.air r, Session.Arrives rs L reader i
  peers : ∀ r, (w.peers r).Sound rs L reader

theorem Sound.blocks (h : w.Sound rs config reader L) :
    L.blocks = (reader.blocks L.geometry).map (Slicer.padded L.geometry) := by
  obtain ⟨p, hs, _⟩ := h.task.slicer
  exact hs.blocks

/-- Back from a branch of the send loop that sent only what is so. -/
theorem Sound.afterLoop (h : w.Sound rs config reader L) {o : LoopOutcome}
    (hconfig : o.loop.config = w.loop.config)
    (htotals : o.loop.draining →
      Slicer.Honest rs L reader (.eof o.loop.totalBytes o.loop.totalBlocks))
    (hmulticast : ∀ i ∈ o.multicast, Session.Arrives rs L reader i) :
    (w.afterLoop o).Sound rs config reader L := by
  obtain ⟨verdict, heq⟩ := o.settle_eq
  unfold World.afterLoop
  rw [heq]
  refine ⟨h.geometry, hconfig.trans h.config, h.task, h.emitted, h.outbound, htotals, ?_, h.peers⟩
  intro r i hi
  rcases List.mem_append.mp hi with hi | hi
  · exact h.air r i hi
  · exact hmulticast i hi

theorem Sound.egress (h : w.Sound rs config reader L) (now : ℕ) {m : Outbound}
    (hm : Slicer.Honest rs L reader m) :
    (w.afterLoop (w.loop.egress now m)).Sound rs config reader L := by
  cases m with
  | shard k slot width floor payload =>
    exact h.afterLoop rfl h.totals fun i hi => by rw [List.mem_singleton.mp hi]; exact hm
  | eof totalBytes totalBlocks =>
    exact h.afterLoop rfl (fun _ => hm) fun i hi => by rw [List.mem_singleton.mp hi]; exact hm

theorem Sound.tick (h : w.Sound rs config reader L) (now : ℕ) (idle : Bool) (wanted : ℕ) :
    (w.afterLoop (w.loop.tick now idle wanted)).Sound rs config reader L := by
  refine h.afterLoop rfl h.totals fun i hi => ?_
  rcases SendLoop.mem_tick_multicast hi with ⟨evicted, rfl⟩ | ⟨hdraining, rfl⟩ | rfl
  · trivial
  · exact h.totals hdraining
  · trivial

/-- A control message changes the group, and may have something for the slicer. -/
theorem control_cases (s : SendLoop) (now : ℕ) (m : Message) : ∃ group feedback,
    s.control now m = { loop := { s with group := group }, feedback := feedback } := by
  cases m with
  | stats stats =>
    simp only [SendLoop.control, SendLoop.onStats]
    split_ifs
    · exact ⟨_, _, rfl⟩
    · exact ⟨s.group, [], rfl⟩
  | nak nak => exact ⟨_, _, rfl⟩
  | leave t r => exact ⟨_, [], rfl⟩
  | _ => exact ⟨s.group, [], rfl⟩

theorem Sound.control (h : w.Sound rs config reader L) (now : ℕ) (m : Message) :
    (w.afterLoop (w.loop.control now m)).Sound rs config reader L := by
  obtain ⟨group, feedback, heq⟩ := control_cases w.loop now m
  rw [heq]
  exact h.afterLoop rfl h.totals (by simp)

theorem Sound.branchHonest (h : w.Sound rs config reader L) {r : ℕ} {b : Session.Branch}
    (hdelivers : w.Delivers r b) : Session.BranchHonest rs L reader b := by
  cases b with
  | packets arrivals => exact fun a ha => h.air r a.2 (hdelivers a ha)
  | _ => trivial

/-- A turn of a receiver that is not over. -/
theorem Sound.turn (h : w.Sound rs config reader L) {r : ℕ} (hrun : (w.peers r).ended = none)
    {b : Session.Branch} (hdelivers : w.Delivers r b) (now : ℕ) (sink : Sink) :
    (w.afterTurn r ((w.peers r).session.turn rs now b sink)).Sound rs config reader L := by
  refine ⟨h.geometry, h.config, h.task, h.emitted, h.outbound, h.totals, h.air,
    forall_peers_afterTurn (P := fun _ p => p.Sound rs L reader) ?_ fun r' _ => h.peers r'⟩
  have hb := h.branchHonest hdelivers
  have hpeer := h.peers r
  have hkept : Session.Kept rs L reader ([] ++ (w.peers r).sunk)
      ((w.peers r).session.turn rs now b sink) :=
    (hpeer.running hrun).turn h.blocks hpeer.tracks now hb sink
  exact ⟨hkept.tracks, by simpa using hkept.delivered, by simpa using hkept.success⟩

theorem Sound.read (h : w.Sound rs config reader L) {task : SlicerTask}
    (hread : w.task.read rs = some task) :
    ∃ L', L.Grows L' ∧ Sound rs config reader L' { w with task := task } := by
  obtain ⟨L', hL, htask, _⟩ := h.task.read hread
  exact ⟨L', hL, hL.geometry.trans h.geometry, h.config, htask,
    fun m hm => (h.emitted m hm).grows hL, h.outbound, fun hd => (h.totals hd).grows hL,
    fun r i hi => (h.air r i hi).grows hL, fun r => (h.peers r).grows hL⟩

theorem Sound.step (h : w.Sound rs config reader L) {a : Action} (hstep : Step rs a w w') :
    ∃ L', L.Grows L' ∧ w'.Sound rs config reader L' := by
  cases hstep with
  | read hread => exact h.read hread
  | feedback hselect hfeedback =>
    exact ⟨L, .refl L, h.geometry, h.config, (h.task.recv hselect.2 _).1, h.emitted, h.outbound,
      h.totals, h.air, h.peers⟩
  | queue hrun htodo hroom =>
    refine ⟨L, .refl L, h.geometry, h.config, ⟨h.task.slicer, fun m hm => ?_⟩, fun m hm => ?_,
      fun m hm => ?_, h.totals, h.air, h.peers⟩
    · exact h.task.todo m (htodo ▸ List.mem_cons_of_mem _ hm)
    · rcases List.mem_append.mp hm with hm | hm
      · exact h.emitted m hm
      · rw [List.mem_singleton.mp hm]
        exact h.task.todo _ (htodo ▸ List.mem_cons_self)
    · rcases List.mem_append.mp hm with hm | hm
      · exact List.mem_append_left _ (h.outbound m hm)
      · exact List.mem_append_right _ hm
  | @egress _ message rest now hrun hout =>
    have hrest : Sound rs config reader L { w with outbound := rest } :=
      ⟨h.geometry, h.config, h.task, h.emitted,
        fun m hm => h.outbound m (hout ▸ List.mem_cons_of_mem _ hm), h.totals, h.air, h.peers⟩
    exact ⟨L, .refl L, hrest.egress now (h.emitted _ (h.outbound _ (hout ▸ List.mem_cons_self)))⟩
  | egressClosed hrun hempty hended => exact ⟨L, .refl L, h.afterLoop rfl h.totals fun _ hi => by cases hi⟩
  | tick now idle wanted hrun => exact ⟨L, .refl L, h.tick now idle wanted⟩
  | deadline now hrun hdue => exact ⟨L, .refl L, h.afterLoop rfl h.totals fun _ hi => by cases hi⟩
  | control now message hrun hmem => exact ⟨L, .refl L, h.control now message⟩
  | turn r now branch sink hrun henabled hdelivers =>
    exact ⟨L, .refl L, h.turn (by simpa using hrun) hdelivers now sink⟩
  | loseDown _ r arrival =>
    exact ⟨L, .refl L, h.geometry, h.config, h.task, h.emitted, h.outbound, h.totals,
      fun r' i hi => h.air r' i (mem_air_of_lost hi), h.peers⟩
  | loseUp _ message =>
    exact ⟨L, .refl L, h.geometry, h.config, h.task, h.emitted, h.outbound, h.totals, h.air,
      h.peers⟩

theorem Sound.start (rs : ReedSolomon) {gathered : List Message} {now : ℕ}
    (h : World.start config reader gathered now = .ok w) : ∃ L : Ledger,
      L.widths = [config.geometry.parityPerSlice] ∧ w.Sound rs config reader L := by
  obtain ⟨_, slicer, assembler, hslicer, hassembler, rfl⟩ := start_eq_ok h
  obtain ⟨L, hgeometry, hwidths, htracks, _⟩ := Slicer.new_tracks rs reader hslicer
  refine ⟨L, hwidths, hgeometry, rfl, ⟨⟨0, htracks, fun _ => ?_⟩, by simp⟩, by simp, by simp,
    by simp [SendLoop.new], by simp, fun r => ?_⟩
  · simp only [Bool.false_eq_true, if_false, List.drop_zero]
    rw [hgeometry, Reader.items_eq_blocks]
  obtain ⟨_, _, _, hnext, htotal, _⟩ := Assembler.new_wf hassembler
  have htracks : Session.Tracks rs L reader (.fresh config.hello assembler r now) :=
    ⟨hgeometry.symm, Assembler.new_holds rs (hgeometry ▸ hassembler), .inl ⟨rfl, htotal⟩,
      by rw [hwidths]; exact Nat.zero_lt_one⟩
  refine ⟨htracks, ⟨[], ⟨rfl, .inl ?_, by simp⟩, .inl rfl⟩, by simp⟩
  simp [Session.releasedBytes, Session.fresh, hnext]

/-- In every state of every run. -/
theorem sound_of_reachable (h : Labelled.Reachable (system rs config reader) w) :
    ∃ L, w.Sound rs config reader L := by
  refine Labelled.Reach.invariant (I := fun w => ∃ L, w.Sound rs config reader L) ?_ ?_ h
  · rintro w ⟨gathered, now, hstart⟩
    obtain ⟨L, _, hsound⟩ := Sound.start rs hstart
    exact ⟨L, hsound⟩
  · rintro a w w' - ⟨L, hsound⟩ hnext
    obtain ⟨L', _, hsound'⟩ := hsound.step (step_of_next hnext)
    exact ⟨L', hsound'⟩

end World
end Scuttlecast
