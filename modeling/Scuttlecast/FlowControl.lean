import Scuttlecast.Soundness
import Scuttlecast.Interpolated
import Scuttlecast.Sender.Membership
import Scuttlecast.Slots

/-! Flow control across the whole system: the sender's floor never passes a current participant,
its window never drops what one of them still needs, and nothing in flight lies past the window
of one of them. -/
namespace Scuttlecast

/-- The arrival is not a shard of slice `bound` or a later one. -/
def Incoming.Below (bound : ℕ) : Incoming → Prop
  | .shard frame => frame.sliceNo < bound
  | .control _ => True

namespace World

variable {rs : ReedSolomon} {config : Config} {reader : Reader} {L : Ledger} {w w' : World}

/-- How far each receiver is. -/
def reached (w : World) (r : ℕ) : ℕ := (w.peers r).session.assembler.nextNeeded

/-- What a message on its way to the sender claims is so. -/
def Reported (w : World) : Message → Prop
  | .stats stats => stats.nextNeededSlice ≤ w.reached stats.receiverId
  | .leave _ r => ∃ summary, (w.peers r).ended = some (.returned (.ok summary))
  | _ => True

/-- No shard of a slice that lies past the window above the floor. -/
abbrev past (w : World) : ℕ := w.loop.group.neededFrom + w.loop.config.geometry.maxLiveSlices

structure Floors (w : World) : Prop where
  base : w.task.slicer.window.base ≤ w.loop.group.neededFrom
  feedback : ∀ v, .needed v ∈ w.feedback → v ≤ w.loop.group.neededFrom
  todo : ∀ m ∈ w.task.todo, Slicer.Below w.past m
  emitted : ∀ m ∈ w.emitted, Slicer.Below w.past m
  air : ∀ r, ∀ i ∈ w.air r, i.Below w.past
  ids : ∀ r, (w.peers r).session.receiverId = r
  behind : w.loop.group.Behind w.reached
  uplink : ∀ m ∈ w.uplink, w.Reported m

/-- Back from a branch of the send loop after which the floor still has everybody before it. -/
theorem Floors.afterLoop (h : w.Floors) {o : LoopOutcome}
    (hconfig : o.loop.config = w.loop.config)
    (hfloor : w.loop.group.neededFrom ≤ o.loop.group.neededFrom)
    (hbehind : o.loop.group.Behind w.reached)
    (hfeedback : ∀ v, .needed v ∈ o.feedback → v ≤ o.loop.group.neededFrom)
    (hmulticast : ∀ i ∈ o.multicast, i.Below w.past) : (w.afterLoop o).Floors := by
  obtain ⟨verdict, heq⟩ := o.settle_eq
  have hpast : w.past ≤ (w.afterLoop o).past := by
    simp only [past, World.afterLoop, heq, hconfig]
    omega
  have hbelow {i : Incoming} (hi : i.Below w.past) : i.Below (w.afterLoop o).past := by
    cases i with
    | shard frame => exact Nat.lt_of_lt_of_le hi hpast
    | control _ => trivial
  unfold World.afterLoop at hbelow hpast ⊢
  rw [heq] at hbelow hpast ⊢
  refine ⟨h.base.trans hfloor, fun v hv => ?_, fun m hm => (h.todo m hm).mono hpast,
    fun m hm => (h.emitted m hm).mono hpast, fun r i hi => ?_, h.ids, hbehind, h.uplink⟩
  · rcases List.mem_append.mp hv with hv | hv
    · exact (h.feedback v hv).trans hfloor
    · rcases List.mem_append.mp hv with hv | hv
      · exact hfeedback v hv
      · split_ifs at hv <;> simp at hv
  · rcases List.mem_append.mp hi with hi | hi
    · exact hbelow (h.air r i hi)
    · exact hbelow (hmulticast i hi)

/-- A branch that only narrows the group. -/
theorem Floors.afterLoop_of_narrows (h : w.Floors) {o : LoopOutcome}
    (hconfig : o.loop.config = w.loop.config) (hn : w.loop.group.Narrows o.loop.group)
    (hfeedback : ∀ v, .needed v ∉ o.feedback) (hmulticast : ∀ i ∈ o.multicast, i.Below w.past) :
    (w.afterLoop o).Floors :=
  h.afterLoop hconfig hn.floor.ge (h.behind.narrows hn) (fun v hv => absurd hv (hfeedback v))
    hmulticast

theorem Floors.egress (h : w.Floors) (now : ℕ) {m : Outbound} (hm : Slicer.Below w.past m) :
    (w.afterLoop (w.loop.egress now m)).Floors := by
  cases m with
  | shard k slot width floor payload =>
    refine h.afterLoop_of_narrows rfl (Group.onEmitted_narrows _ _) (fun _ hv => by cases hv) ?_
    intro i hi
    rw [List.mem_singleton.mp hi]
    exact hm
  | eof totalBytes totalBlocks =>
    refine h.afterLoop_of_narrows rfl (Group.onEof_narrows _ _) (fun _ hv => by cases hv) ?_
    intro i hi
    rw [List.mem_singleton.mp hi]
    trivial

theorem Floors.tick (h : w.Floors) (now : ℕ) (idle : Bool) (wanted : ℕ) :
    (w.afterLoop (w.loop.tick now idle wanted)).Floors := by
  refine h.afterLoop_of_narrows rfl (Group.reapSilent_narrows _ _ _) (fun v hv => ?_) ?_
  · simp only [SendLoop.tick] at hv
    split_ifs at hv <;> simp at hv
  · intro i hi
    rcases SendLoop.mem_tick_multicast hi with ⟨evicted, rfl⟩ | ⟨-, rfl⟩ | rfl <;> trivial

/-- A report of no more than its receiver has moves the floor to no more than anybody has. -/
theorem Floors.stats (h : w.Floors) (now : ℕ) {stats : Stats}
    (hs : stats.nextNeededSlice ≤ w.reached stats.receiverId) :
    (w.afterLoop (w.loop.onStats now stats)).Floors := by
  unfold SendLoop.onStats
  split_ifs
  swap
  · exact h.afterLoop_of_narrows rfl (.refl _) (fun _ hv => by cases hv) fun _ hi => by cases hi
  have hseen := h.behind.narrows (Group.markSeen_narrows w.loop.group stats.receiverId now)
  have hfloor := (w.loop.group.markSeen_narrows stats.receiverId now).floor
  have hmoves := (w.loop.group.markSeen stats.receiverId now).onStats_floor stats
  have hdemand := Group.repairDemand_narrows
    ((w.loop.group.markSeen stats.receiverId now).onStats stats).2 stats
  refine h.afterLoop rfl ?_ ((hseen.onStats hs).narrows hdemand) (fun v hv => ?_)
    fun _ hi => by cases hi
  · exact hfloor ▸ hmoves.1.trans_eq hdemand.floor.symm
  · obtain ⟨v', hv', heq⟩ := List.mem_map.mp hv
    rw [Feedback.needed.injEq] at heq
    rw [← heq, hmoves.2 v' (Option.mem_toList.mp hv')]
    exact hdemand.floor.ge

theorem Floors.control (h : w.Floors) (now : ℕ) {m : Message} (hm : w.Reported m) :
    (w.afterLoop (w.loop.control now m)).Floors := by
  cases m with
  | stats stats => exact h.stats now hm
  | nak nak =>
    refine h.afterLoop_of_narrows rfl (Group.onNak_narrows _ _ _) (fun v hv => ?_)
      fun _ hi => by cases hi
    simp only [SendLoop.control, SendLoop.onNak] at hv
    split_ifs at hv <;> simp at hv
  | leave t r =>
    exact h.afterLoop_of_narrows rfl (Group.leave_narrows _ _) (fun _ hv => by cases hv)
      fun _ hi => by cases hi
  | _ =>
    exact h.afterLoop_of_narrows rfl (.refl _) (fun _ hv => by cases hv) fun _ hi => by cases hi

/-- A turn takes its receiver no further back. -/
theorem reached_afterTurn (rs : ReedSolomon) (w : World) (r now : ℕ) (b : Session.Branch)
    (sink : Sink) (r' : ℕ) :
    w.reached r' ≤ (w.afterTurn r ((w.peers r).session.turn rs now b sink)).reached r' :=
  forall_peers_afterTurn (P := fun r' p => w.reached r' ≤ p.session.assembler.nextNeeded)
    (Session.turn_follows rs (w.peers r).session now b sink).next (fun _ _ => le_rfl) r'

/-- What is so stays so. -/
theorem Reported.afterTurn {r : ℕ} (hrun : (w.peers r).ended = none) (now : ℕ) (b : Session.Branch)
    (sink : Sink) {m : Message} (h : w.Reported m) :
    (w.afterTurn r ((w.peers r).session.turn rs now b sink)).Reported m := by
  cases m with
  | stats stats => exact Nat.le_trans h (w.reached_afterTurn rs r now b sink stats.receiverId)
  | leave t r' =>
    obtain ⟨summary, hended⟩ := h
    have hne : r' ≠ r := by
      rintro rfl
      simp [hrun] at hended
    exact ⟨summary, by rw [peers_afterTurn_of_ne w hne, hended]⟩
  | _ => trivial

/-- What a turn sends is so. -/
theorem Floors.turn (h : w.Floors) {r : ℕ} (hrun : (w.peers r).ended = none) (now : ℕ)
    (b : Session.Branch) (sink : Sink) :
    (w.afterTurn r ((w.peers r).session.turn rs now b sink)).Floors := by
  have hold {m : Message} (hm : w.Reported m) :
      (w.afterTurn r ((w.peers r).session.turn rs now b sink)).Reported m :=
    hm.afterTurn hrun now b sink
  have hreached := w.reached_afterTurn rs r now b sink
  have hfollows := Session.turn_follows rs (w.peers r).session now b sink
  have hsent := Session.turn_sent rs (w.peers r).session now b sink
  generalize (w.peers r).session.turn rs now b sink = o at hold hreached hfollows hsent
  have hself := w.peers_afterTurn_self r o
  refine ⟨h.base, h.feedback, h.todo, h.emitted, h.air, ?_, h.behind.mono hreached,
    fun m hm => ?_⟩
  · exact forall_peers_afterTurn (P := fun r' p => p.session.receiverId = r')
      (hfollows.receiverId.trans (h.ids r)) fun r' _ => h.ids r'
  · rcases List.mem_append.mp hm with hm | hm
    · exact hold (h.uplink m hm)
    · rcases hsent m hm with hsays | ⟨rfl, summary, hended⟩
      · cases m with
        | stats stats =>
          obtain ⟨-, hid, hnext⟩ := hsays
          rw [hfollows.receiverId, h.ids] at hid
          simpa [Reported, reached, hid, hself] using hnext
        | leave t r' => exact hsays.elim
        | _ => trivial
      · rw [Reported, h.ids]
        exact ⟨summary, by rw [hself]; exact hended⟩

/-- The slicer's own steps: what they emit lies in the window above the base. -/
theorem Floors.step (h : w.Floors) (hs : w.Sound rs config reader L) {a : Action}
    (hstep : Step rs a w w') : w'.Floors := by
  have hgeometry : L.geometry.maxLiveSlices = w.loop.config.geometry.maxLiveSlices := by
    rw [hs.geometry, hs.config]
  have hpast : w.task.slicer.window.base + L.geometry.maxLiveSlices ≤ w.past := by
    have := h.base
    simp only [past]
    omega
  cases hstep with
  | read hread =>
    obtain ⟨_, _, _, hbase, htodo⟩ := hs.task.read hread
    exact ⟨hbase ▸ h.base, h.feedback, fun m hm => (htodo m hm).mono hpast, h.emitted, h.air,
      h.ids, h.behind, h.uplink⟩
  | @feedback _ message rest hselect hfeedback =>
    obtain ⟨_, hbase, htodo⟩ := hs.task.recv hselect.2 message
    refine ⟨?_, fun v hv => h.feedback v (hfeedback ▸ List.mem_cons_of_mem _ hv),
      fun m hm => (htodo m hm).mono hpast, h.emitted, h.air, h.ids, h.behind, h.uplink⟩
    rw [hbase]
    have hle := h.base
    cases message with
    | needed v =>
      have := h.feedback v (hfeedback ▸ List.mem_cons_self)
      simp only
      omega
    | _ => exact hle
  | queue hrun htodo hroom =>
    refine ⟨h.base, h.feedback, fun m hm => ?_, fun m hm => ?_, h.air, h.ids, h.behind, h.uplink⟩
    · exact h.todo m (htodo ▸ List.mem_cons_of_mem _ hm)
    · rcases List.mem_append.mp hm with hm | hm
      · exact h.emitted m hm
      · rw [List.mem_singleton.mp hm]
        exact h.todo _ (htodo ▸ List.mem_cons_self)
  | @egress _ message rest now hrun hout =>
    have hrest : Floors { w with outbound := rest } :=
      ⟨h.base, h.feedback, h.todo, h.emitted, h.air, h.ids, h.behind, h.uplink⟩
    exact hrest.egress now (h.emitted _ (hs.outbound _ (hout ▸ List.mem_cons_self)))
  | egressClosed hrun hempty hended =>
    exact h.afterLoop_of_narrows rfl (.refl _) (fun _ hv => by cases hv) fun _ hi => by cases hi
  | tick now idle wanted hrun => exact h.tick now idle wanted
  | deadline now hrun hdue =>
    exact h.afterLoop_of_narrows rfl (.refl _) (fun _ hv => by cases hv) fun _ hi => by cases hi
  | control now message hrun hmem => exact h.control now (h.uplink _ hmem)
  | turn r now branch sink hrun henabled hdelivers =>
    exact h.turn (by simpa using hrun) now branch sink
  | loseDown _ r arrival =>
    exact ⟨h.base, h.feedback, h.todo, h.emitted,
      fun r' i hi => h.air r' i (mem_air_of_lost hi), h.ids, h.behind, h.uplink⟩
  | loseUp _ message =>
    exact ⟨h.base, h.feedback, h.todo, h.emitted, h.air, h.ids, h.behind,
      fun m hm => h.uplink m (List.mem_of_mem_erase hm)⟩

theorem Floors.start {gathered : List Message} {now : ℕ}
    (h : World.start config reader gathered now = .ok w) : w.Floors := by
  obtain ⟨_, slicer, assembler, hslicer, hassembler, rfl⟩ := start_eq_ok h
  obtain ⟨window, hwindow, hs⟩ := bind_ok_iff.mp hslicer
  have hbase : window.base = 0 := by
    rw [(Window.new_window hwindow).2.2]
    rfl
  rw [Except.ok.injEq] at hs
  obtain ⟨hbehind, hfloor⟩ := Group.gather_behind gathered (fun _ => assembler.nextNeeded)
  have hseen := Group.markAllSeen_narrows (SendLoop.gather gathered) now
  refine ⟨?_, by simp, by simp, by simp, by simp, fun r => rfl, hbehind.narrows hseen, by simp⟩
  rw [← hs, hbase]
  exact Nat.zero_le _

theorem floors_of_reachable (h : Labelled.Reachable (system rs config reader) w) : w.Floors := by
  refine Labelled.Reach.invariant_on (J := fun w => ∃ L, w.Sound rs config reader L)
    (fun _ h => sound_of_reachable h) ?_ ?_ h
  · rintro w ⟨gathered, now, hstart⟩
    exact Floors.start hstart
  · rintro a w w' - ⟨L, hsound⟩ - hfloors hnext
    exact hfloors.step hsound (step_of_next hnext)

/-- Handling feedback in order, with everything a resend would send left out. -/
theorem foldl_recv_tracks {t : SlicerTask} {bound : ℕ} (messages : List Feedback)
    (hs : ∃ p, t.slicer.Tracks rs L reader p) (hbase : t.slicer.window.base ≤ bound)
    (hneeded : ∀ v, .needed v ∈ messages → v ≤ bound) :
    (∃ p, (messages.foldl SlicerTask.recv t).slicer.Tracks rs L reader p) ∧
      (messages.foldl SlicerTask.recv t).slicer.window.base ≤ bound ∧
      (messages.foldl SlicerTask.recv t).slicer.window.current = t.slicer.window.current := by
  induction messages generalizing t with
  | nil => exact ⟨hs, hbase, rfl⟩
  | cons message rest ih =>
    obtain ⟨p, hp⟩ := hs
    have hrest : ∀ v, .needed v ∈ rest → v ≤ bound :=
      fun v hv => hneeded v (List.mem_cons_of_mem _ hv)
    have hstep : (∃ p, (t.recv message).slicer.Tracks rs L reader p) ∧
        (t.recv message).slicer.window.base ≤ bound ∧
        (t.recv message).slicer.window.current = t.slicer.window.current := by
      cases message with
      | needed v =>
        refine ⟨⟨p, hp.retainFrom v⟩, ?_, rfl⟩
        have hv := hneeded v List.mem_cons_self
        have hmoved := (hp.window.retainFrom v).2
        simp only [SlicerTask.recv]
        omega
      | cover parity => exact ⟨⟨p, hp.cover parity⟩, hbase, rfl⟩
      | resend sliceNo blocks => exact ⟨⟨p, hp⟩, hbase, rfl⟩
      | done => exact ⟨⟨p, hp⟩, hbase, rfl⟩
    obtain ⟨hs', hbase', hcurrent⟩ := ih hstep.1 hstep.2.1 hrest
    exact ⟨hs', hbase', hcurrent.trans hstep.2.2⟩

/-- The sender discards nothing a current participant still needs: neither its floor nor any
floor on its way to the slicer passes the participant, and whatever part of the feedback the
slicer has handled, its window answers for every sealed slice from there on with the blocks that
were read and the parity that was sent. -/
theorem needed_slices_are_kept (h : Labelled.Reachable (system rs config reader) w) :
    ∃ L : Ledger, L.geometry = config.geometry ∧
      L.blocks = (reader.blocks config.geometry).map (Slicer.padded config.geometry) ∧
      (∀ k slot width floor payload,
        .shard k slot width floor payload ∈ w.emitted ++ w.task.todo →
        L.shard rs k slot = some payload ∧ L.widths[k]? = some width) ∧
      ∀ r ∈ w.loop.group.participants, w.loop.group.neededFrom ≤ w.reached r ∧
        (∀ v, .needed v ∈ w.feedback → v ≤ w.reached r) ∧
        ∀ k, w.reached r ≤ k → k < w.task.slicer.window.current.sliceNo →
          w.loop.group.nobodyNeeds k = false ∧
          ∀ handled,
            let window := ((w.feedback.take handled).foldl SlicerTask.recv w.task).slicer.window
            window.sliceParity k = L.widths[k]? ∧
              ∀ slot, window.shard k slot = L.shard rs k slot := by
  obtain ⟨L, hs⟩ := sound_of_reachable h
  have hf := floors_of_reachable h
  refine ⟨L, hs.geometry, hs.geometry ▸ hs.blocks, fun k slot width floor payload hm => ?_,
    fun r hr => ?_⟩
  · have hhonest : Slicer.Honest rs L reader (.shard k slot width floor payload) := by
      rcases List.mem_append.mp hm with hm | hm
      · exact hs.emitted _ hm
      · exact hs.task.todo _ hm
    exact ⟨hhonest.1, hhonest.2.1⟩
  obtain ⟨p, hp⟩ := Table.mem_iff_lookup.mp hr
  have hfloor := (hf.behind r p hp).2
  refine ⟨hfloor, fun v hv => (hf.feedback v hv).trans hfloor, fun k hk hsealed => ⟨?_, ?_⟩⟩
  · simpa [Group.nobodyNeeds] using hfloor.trans hk
  · intro handled
    obtain ⟨p, hslicer, _⟩ := hs.task.slicer
    obtain ⟨⟨p', hp'⟩, hbase, hcurrent⟩ := foldl_recv_tracks (w.feedback.take handled)
      ⟨p, hslicer⟩ hf.base fun v hv => hf.feedback v (List.mem_of_mem_take hv)
    have hbase' := hbase.trans (hfloor.trans hk)
    have hsealed' := hcurrent.symm ▸ hsealed
    exact ⟨hp'.window.sliceParity_eq hbase' hsealed'.le,
      hp'.window.shard_of_sealed hbase' hsealed'⟩

/-- A transfer of one short block, its only slice sealed and on its way. -/
theorem exists_sealed_slice : ∃ w,
    Labelled.Reachable (system .interpolated (.tiny 2) (.single [1])) w ∧
      0 ∈ w.loop.group.participants ∧ w.reached 0 = 0 ∧
      w.task.slicer.window.current.sliceNo = 1 ∧ w.emitted = [.shard 0 0 0 0 [1, 0]] := by
  obtain ⟨w₀, hstart, w, hrun, hmem, hreached, hcurrent, hemitted⟩ : ∃ w₀,
      start (.tiny 2) (.single [1]) [.join 7 0] 0 = .ok w₀ ∧ ∃ w,
      Labelled.exec (system .interpolated (.tiny 2) (.single [1])) [.read, .queue] w₀ = some w ∧
      0 ∈ w.loop.group.participants ∧ w.reached 0 = 0 ∧
      w.task.slicer.window.current.sliceNo = 1 ∧ w.emitted = [.shard 0 0 0 0 [1, 0]] := by
    unfold start
    rw [Reader.items_byte]
    exact ⟨_, rfl, _, rfl, by decide, rfl, rfl, rfl⟩
  exact ⟨w, .exec (.start ⟨_, _, hstart⟩) hrun, hmem, hreached, hcurrent, hemitted⟩

theorem needed_slices_are_kept_short_block : ∃ w,
    Labelled.Reachable (system .interpolated (.tiny 2) (.single [1])) w ∧
      w.loop.group.nobodyNeeds 0 = false ∧ w.task.slicer.window.shard 0 0 = some [1, 0] := by
  obtain ⟨w, hreach, hmem, hreached, hcurrent, hemitted⟩ := exists_sealed_slice
  obtain ⟨L, _, _, hemit, hkept⟩ := needed_slices_are_kept hreach
  obtain ⟨_, _, hslice⟩ := hkept 0 hmem
  obtain ⟨hneeded, hwindow⟩ := hslice 0 hreached.le (hcurrent ▸ Nat.zero_lt_one)
  refine ⟨w, hreach, hneeded, ?_⟩
  have hshard := (hemit 0 0 0 0 [1, 0] (by simp [hemitted])).1
  exact ((hwindow 0).2 0).trans hshard

end World

namespace Session

variable {s : Session} {frame : Frame}

theorem requestGaps_counts (s : Session) (now : ℕ) :
    (s.requestGaps now).session.late = s.late ∧
      (s.requestGaps now).session.duplicates = s.duplicates := by
  obtain ⟨⟨naks, heq⟩, _⟩ := requestGaps_session s now
  rw [heq]
  exact ⟨rfl, rfl⟩

/-- The two counters after a shard that `insert` did not die of. -/
theorem takeShard_counts {taken : Bool} {assembler : Assembler}
    (h : s.assembler.insert frame.sliceNo frame.slot frame.sliceParity frame.payload =
      .ok (taken, assembler)) (now : ℕ) :
    (s.takeShard frame now).session.late =
        s.late + (if taken = false ∧ frame.sliceNo < s.assembler.nextNeeded then 1 else 0) ∧
      (s.takeShard frame now).session.duplicates =
        s.duplicates + (if taken = false ∧ s.assembler.nextNeeded ≤ frame.sliceNo then 1 else 0) := by
  have hnext := (insert_frame h).1
  have hite (s' : Session) (c : Prop) [Decidable c] :
      (if c then s'.requestGaps now else { session := s' }).session.late = s'.late ∧
        (if c then s'.requestGaps now else { session := s' }).session.duplicates =
          s'.duplicates := by
    split_ifs
    · exact requestGaps_counts s' now
    · exact ⟨rfl, rfl⟩
  unfold takeShard
  simp only [h, hite]
  cases taken with
  | true => simp
  | false =>
    simp only [Bool.false_eq_true, if_false, true_and, refused, hnext]
    by_cases hlate : frame.sliceNo < s.assembler.nextNeeded
    · simp [hlate, Nat.not_le.mpr hlate]
    · simp [hlate, Nat.not_lt.mp hlate]

end Session

namespace World

variable {rs : ReedSolomon} {config : Config} {reader : Reader} {L : Ledger} {w w' : World}

/-- Whatever shard the slicer has emitted, and whenever it arrives at a current participant, it
passes the check; it is refused exactly when its slice is past or its slot is held, and the
counters say which. -/
theorem emitted_shards_are_accepted
    (hslots : config.geometry.blocksPerSlice + config.geometry.parityPerSlice < 2 ^ 16)
    (h : Labelled.Reachable (system rs config reader) w) {frame : Frame}
    (hm : .shard frame.sliceNo frame.slot frame.sliceParity frame.emitFloor frame.payload ∈
      w.emitted) {r : ℕ} (hr : r ∈ w.loop.group.participants) (now : ℕ) :
    let s := (w.peers r).session
    let late := frame.sliceNo < s.assembler.nextNeeded
    let held := s.assembler.has frame.sliceNo frame.slot
    let insert := s.assembler.insert frame.sliceNo frame.slot frame.sliceParity frame.payload
    s.checkShard frame = .ok (.ok ()) ∧
      (∀ p, insert = .error p → p = .overflow 32 ∧
        2 ^ 32 ≤ s.assembler.nextNeeded + config.geometry.maxLiveSlices) ∧
      ∀ taken assembler, insert = .ok (taken, assembler) → (taken = false ↔ late ∨ held) ∧
        (s.takeShard frame now).session.late = s.late + (if late then 1 else 0) ∧
        (s.takeShard frame now).session.duplicates =
          s.duplicates + (if ¬ late ∧ held then 1 else 0) := by
  intro s late held insert
  obtain ⟨L, hs⟩ := sound_of_reachable h
  have hf := floors_of_reachable h
  obtain ⟨hshard, hwidth, _⟩ := hs.emitted _ hm
  have htracks := (hs.peers r).tracks
  have hgeometry : s.assembler.geometry = config.geometry :=
    htracks.assembler.geometry.trans hs.geometry
  have hlt : frame.sliceNo < s.assembler.nextNeeded + s.assembler.geometry.maxLiveSlices := by
    obtain ⟨p, hp⟩ := Table.mem_iff_lookup.mp hr
    have hfloor : w.loop.group.neededFrom ≤ s.assembler.nextNeeded := (hf.behind r p hp).2
    have hbelow := hf.emitted _ hm
    rw [Slicer.Below, past, hs.config] at hbelow
    rw [hgeometry]
    omega
  refine ⟨?_, fun p hp => ?_, fun taken assembler hi => ?_⟩
  · apply Session.checkShard_of_checked (by rwa [hgeometry])
    · exact htracks.geometry.trans htracks.assembler.geometry.symm
    · rw [htracks.geometry]
      exact .of_shard hshard hwidth
  · rcases (Assembler.insert_eq_error hp).2 with ⟨hover, hle⟩ | ⟨_, hle⟩
    · exact ⟨hover, hgeometry ▸ hle⟩
    · rw [hgeometry] at hle
      omega
  · have hiff := htracks.assembler.insert_eq_false_iff hshard hwidth hi hlt
    obtain ⟨hlate, hduplicates⟩ := Session.takeShard_counts hi now
    refine ⟨hiff, ?_, ?_⟩
    · rw [hlate]
      congr 1
      have : (taken = false ∧ late) ↔ late := ⟨And.right, fun hl => ⟨hiff.mpr (.inl hl), hl⟩⟩
      simp only [late] at this
      simp only [this, late]
    · rw [hduplicates]
      congr 1
      have : (taken = false ∧ s.assembler.nextNeeded ≤ frame.sliceNo) ↔ ¬ late ∧ held := by
        rw [hiff]
        simp only [late]
        constructor
        · rintro ⟨hcase, hge⟩
          exact ⟨Nat.not_lt.mpr hge, hcase.resolve_left (Nat.not_lt.mpr hge)⟩
        · rintro ⟨hge, hheld⟩
          exact ⟨.inr hheld, Nat.not_lt.mp hge⟩
      simp only [this]

theorem emitted_shards_are_accepted_short_block : ∃ w,
    Labelled.Reachable (system .interpolated (.tiny 2) (.single [1])) w ∧
      (w.peers 0).session.checkShard
        { slot := 0, sliceParity := 0, transferId := 7, seq := 0, sliceNo := 0, emitFloor := 0
          payload := [1, 0] } = .ok (.ok ()) := by
  obtain ⟨w, hreach, hmem, _, _, hemitted⟩ := exists_sealed_slice
  exact ⟨w, hreach, (emitted_shards_are_accepted (by decide) hreach
    (by simp [hemitted]) hmem 0).1⟩

end World
end Scuttlecast
