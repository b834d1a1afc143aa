import Scuttlecast.Verdict
import Scuttlecast.SendStream
import Scuttlecast.Shutdown
import Scuttlecast.Starved

/-! What the sender can do by itself while its loop goes on: empty the channels between its two
tasks, and read an input that leaves room in the window to its end. -/
namespace Scuttlecast
namespace World

variable {rs : ReedSolomon} {config : Config} {reader : Reader} {L : Ledger} {w w' w'' : World}

/-- Steps of the sender alone, after which its loop still goes on. The receivers, what they sent,
who was heard of when and which slices are needed are as they were, and what was in flight still is. -/
structure Onward (w w' : World) : Prop where
  peers : w'.peers = w.peers
  uplink : w'.uplink = w.uplink
  seen : ∀ id, w'.loop.group.seen id = w.loop.group.seen id
  floor : w'.loop.group.neededFrom = w.loop.group.neededFrom
  running : w'.loop.verdict = none
  air : ∀ r, w.air r ⊆ w'.air r
  draining : w.loop.draining → w'.loop.draining
  drained : w.task.drained → w'.task.drained

theorem Onward.refl (h : w.loop.verdict = none) : Onward w w :=
  ⟨rfl, rfl, fun _ => rfl, rfl, h, fun _ => List.Subset.refl _, id, id⟩

theorem Onward.trans (h : Onward w w') (h' : Onward w' w'') : Onward w w'' :=
  ⟨h'.peers.trans h.peers, h'.uplink.trans h.uplink, fun id => (h'.seen id).trans (h.seen id),
    h'.floor.trans h.floor, h'.running, fun r => List.Subset.trans (h.air r) (h'.air r),
    fun hd => h'.draining (h.draining hd), fun hd => h'.drained (h.drained hd)⟩

theorem Onward.members (h : Onward w w') (id : ℕ) :
    w'.loop.group.contains id = w.loop.group.contains id := by
  rw [Group.contains_eq_seen, Group.contains_eq_seen, h.seen]

/-- A shard that has been sent is in flight to everybody, whatever number it got. -/
def OnAir (w : World) : Outbound → Prop
  | .shard sliceNo slot sliceParity emitFloor payload => ∀ r, ∃ frame,
      .shard frame ∈ w.air r ∧ frame.sliceNo = sliceNo ∧ frame.slot = slot ∧
      frame.sliceParity = sliceParity ∧ frame.emitFloor = emitFloor ∧ frame.payload = payload
  | .eof _ _ => w.loop.draining

theorem OnAir.onward {m : Outbound} (hm : w.OnAir m) (h : Onward w w') : w'.OnAir m := by
  cases m with
  | shard sliceNo slot sliceParity emitFloor payload =>
    intro r
    obtain ⟨frame, hframe, hfields⟩ := hm r
    exact ⟨frame, h.air r hframe, hfields⟩
  | eof => exact h.draining hm

/-- While the loop goes on, an input that can be read keeps the slicer going too. -/
theorem ended_of_running (hreadable : SlicerTask.Readable reader config.geometry)
    (h : Labelled.Reachable (system rs config reader) w) (hrun : w.loop.verdict = none) :
    w.task.ended = none := by
  have hover : w.Returned → w.loop.verdict.isSome := by
    refine Labelled.Reach.invariant_on (J := fun w => w.Orderly ∧ ∃ L, w.Sound rs config reader L)
      (I := fun w => w.Returned → w.loop.verdict.isSome)
      (fun _ h => ⟨orderly_of_reachable h, sound_of_reachable h⟩) ?_ ?_ h
    · rintro w ⟨gathered, now, hstart⟩ hreturned
      obtain ⟨_, _, _, _, _, rfl⟩ := start_eq_ok hstart
      cases hreturned
    · rintro a w w' - ⟨horderly, L, hs⟩ - hclosed hnext hreturned
      cases step_of_next hnext with
      | read hread => exact absurd hreturned (hs.task.backlog_read hread []).1
      | @feedback _ message rest hselect hfeedback =>
        cases message with
        | done =>
          by_contra hnone
          have hrun : w.loop.verdict = none := by simpa using hnone
          exact horderly.running hrun (hfeedback ▸ List.mem_cons_self)
        | _ => exact hclosed hreturned
      | queue => exact hclosed hreturned
      | loseDown | loseUp | turn => exact hclosed hreturned
      | _ => exact absurd (hclosed hreturned) (by simp_all)
  rcases ended_of_reachable hreadable h with hended | hreturned
  · exact hended
  · rw [hrun] at hover
    exact absurd (hover hreturned) (by simp)

/-- One message out of the channel. -/
theorem onward_egress (h : Labelled.Reachable (system rs config reader) w)
    (hrun : w.loop.verdict = none) {m : Outbound} {rest : List Outbound}
    (hout : w.outbound = m :: rest) (now : ℕ) :
    ∃ w', (system rs config reader).next (.egress now) w = some w' ∧ Onward w w' ∧
      w'.outbound = rest ∧ w'.task = w.task ∧ w'.feedback = w.feedback ∧ w'.OnAir m := by
  have hunfinished := (concluded_of_reachable h).unfinished hrun
  have hverdict : (w.loop.egress now m).loop.verdict = none := by cases m <;> exact hrun
  have hsettle := SendLoop.settle_of_unfinished hverdict (hunfinished.egress now m)
  have hseen (id : ℕ) : (w.loop.egress now m).loop.group.seen id = w.loop.group.seen id := by
    cases m with
    | shard => rfl
    | eof => exact Group.seen_onEof _
  have hfloor : (w.loop.egress now m).loop.group.neededFrom = w.loop.group.neededFrom := by
    cases m <;> rfl
  have hstep : (system rs config reader).next (.egress now) w =
      some ({ w with outbound := rest }.afterLoop (w.loop.egress now m)) := by
    simp only [system, next, stepEgress, hout]
    exact if_pos (by rw [hrun]; rfl)
  refine ⟨_, hstep, ?_, ?_⟩
  · unfold World.afterLoop
    rw [hsettle]
    refine ⟨rfl, rfl, hseen, hfloor, hverdict, fun r => List.subset_append_left _ _, ?_, id⟩
    cases m with
    | shard => exact id
    | eof => exact fun _ => rfl
  · unfold World.afterLoop
    rw [hsettle]
    cases m with
    | shard sliceNo slot sliceParity emitFloor payload =>
      exact ⟨rfl, rfl, List.append_nil _, fun r =>
        ⟨_, List.mem_append_right _ List.mem_cons_self, rfl, rfl, rfl, rfl, rfl⟩⟩
    | eof => exact ⟨rfl, rfl, List.append_nil _, rfl⟩

/-- The channel runs empty. -/
theorem canReach_emptied (h : Labelled.Reachable (system rs config reader) w)
    (hrun : w.loop.verdict = none) (now : ℕ) :
    Labelled.CanReachAt (system rs config reader) Action.readings (fun w' time => time = now ∧
      Onward w w' ∧ w'.outbound = [] ∧ w'.task = w.task ∧ w'.feedback = w.feedback) w now := by
  induction hout : w.outbound generalizing w with
  | nil => exact .here ⟨rfl, .refl hrun, hout, rfl, rfl⟩
  | cons m rest ih =>
    obtain ⟨w', hnext, honward, hrest, htask, hfeedback, -⟩ := onward_egress h hrun hout now
    refine .once le_rfl hnext rfl (.mono (ih (h.step trivial hnext) honward.running hrest) ?_)
    rintro w'' time ⟨hnow, honward', hempty, htask', hfeedback'⟩
    exact ⟨hnow, honward.trans honward', hempty, htask'.trans htask, hfeedback'.trans hfeedback⟩

/-- What the slicer has started to send gets out, through an empty channel. -/
theorem canReach_sent (h : Labelled.Reachable (system rs config reader) w)
    (hrun : w.loop.verdict = none) (hended : w.task.ended = none) (hempty : w.outbound = [])
    (now : ℕ) :
    Labelled.CanReachAt (system rs config reader) Action.readings (fun w' time => time = now ∧
      Onward w w' ∧ w'.outbound = [] ∧ w'.task = { w.task with todo := [] } ∧
        w'.feedback = w.feedback ∧ ∀ m ∈ w.task.todo, w'.OnAir m) w now := by
  induction htodo : w.task.todo generalizing w with
  | nil => exact .here ⟨rfl, .refl hrun, hempty, by rw [← htodo], rfl, by simp⟩
  | cons m rest ih =>
    have hqueue : (system rs config reader).next .queue w = _ :=
      next_queue hended htodo (by simp [hempty])
    have hqueued : Labelled.Reachable (system rs config reader) _ := h.step trivial hqueue
    have hout : w.outbound ++ [m] = [m] := by simp [hempty]
    obtain ⟨w', hegress, honward, hrest, htask, hfeedback, hair⟩ :=
      onward_egress hqueued hrun hout now
    refine .untimed hqueue rfl (.once le_rfl hegress rfl (.mono (ih (hqueued.step trivial hegress)
      honward.running (by rw [htask]; exact hended) hrest (by rw [htask])) ?_))
    rintro w'' time ⟨hnow, honward', hempty', htask', hfeedback', hsent⟩
    have honward'' : Onward w w' := ⟨honward.peers, honward.uplink, honward.seen, honward.floor,
      honward.running, honward.air, honward.draining, honward.drained⟩
    refine ⟨hnow, honward''.trans honward', hempty', by rw [htask', htask], hfeedback'.trans hfeedback,
      fun m' hm => ?_⟩
    rcases List.mem_cons.mp hm with rfl | hm
    · exact hair.onward honward'
    · exact hsent m' hm

/-- Nothing waits in the channels, nor to be put into them. -/
structure Quiet (w : World) : Prop where
  todo : w.task.todo = []
  outbound : w.outbound = []
  feedback : w.feedback = []

/-- The loop's messages are taken, and all that they lead to is sent. -/
theorem canReach_quiet (hreadable : SlicerTask.Readable reader config.geometry)
    (h : Labelled.Reachable (system rs config reader) w) (hrun : w.loop.verdict = none) (now : ℕ) :
    Labelled.CanReachAt (system rs config reader) Action.readings (fun w' time => time = now ∧
      Onward w w' ∧ w'.Quiet ∧ w'.task.input = w.task.input ∧ w'.task.drained = w.task.drained) w
      now := by
  induction hn : w.feedback.length generalizing w with
  | zero =>
    have hended := ended_of_running hreadable h hrun
    refine ((canReach_emptied h hrun now).reachable h).trans ?_
    rintro w₁ time ⟨h₁, rfl, honward, hempty, htask, hfeedback⟩
    refine (canReach_sent h₁ honward.running (by rw [htask]; exact hended) hempty time).mono ?_
    rintro w₂ time' ⟨hnow, honward', hempty', htask', hfeedback', -⟩
    refine ⟨hnow, honward.trans honward', ⟨by rw [htask'], hempty', ?_⟩, by rw [htask', htask],
      by rw [htask', htask]⟩
    rw [hfeedback', hfeedback]
    exact List.eq_nil_of_length_eq_zero hn
  | succ n ih =>
    have hended := ended_of_running hreadable h hrun
    refine ((canReach_emptied h hrun now).reachable h).trans ?_
    rintro w₁ time ⟨h₁, rfl, honward, hempty, htask, hfeedback⟩
    refine ((canReach_sent h₁ honward.running (by rw [htask]; exact hended) hempty time).reachable
      h₁).trans ?_
    rintro w₂ time' ⟨h₂, rfl, honward', hempty', htask', hfeedback', -⟩
    rcases hqueue : w₂.feedback with _ | ⟨message, rest⟩
    · rw [← hfeedback, ← hfeedback', hqueue] at hn
      cases hn
    have hselect : w₂.task.AtSelect := by
      rw [htask', htask]
      exact ⟨by simp [hended], rfl⟩
    have hnext : (system rs config reader).next .feedback w₂ =
        some { w₂ with task := w₂.task.recv message, feedback := rest } := by
      simp only [system, next, stepFeedback, hqueue]
      exact if_pos hselect
    have hinput : (w₂.task.recv message).input = w₂.task.input ∧
        (w₂.task.recv message).drained = w₂.task.drained := by
      cases message <;> exact ⟨rfl, rfl⟩
    have hlen : rest.length = n := by
      rw [← hfeedback, ← hfeedback', hqueue] at hn
      exact Nat.succ.inj hn
    refine .untimed hnext rfl (.mono (ih (h₂.step trivial hnext) honward'.running hlen) ?_)
    rintro w₃ time'' ⟨hnow, honward'', hquiet, hinput', hdrained'⟩
    have honward₂ : Onward w₂ w₃ := ⟨honward''.peers, honward''.uplink, honward''.seen,
      honward''.floor, honward''.running, honward''.air, honward''.draining,
      fun hd => honward''.drained (by rw [← hd]; exact hinput.2)⟩
    refine ⟨hnow, (honward.trans honward').trans honward₂, hquiet, ?_, ?_⟩
    · rw [hinput', hinput.1, htask', htask]
    · rw [hdrained', hinput.2, htask', htask]

/-- A request that waits for the slicer is answered, with all the window still has of it. -/
theorem canReach_resent (hreadable : SlicerTask.Readable reader config.geometry)
    (h : Labelled.Reachable (system rs config reader) w) (hrun : w.loop.verdict = none)
    (htodo : w.task.todo = []) (hempty : w.outbound = []) {k : ℕ} {slots : List ℕ}
    (hfeedback : w.feedback = [.resend k slots]) (now : ℕ) :
    Labelled.CanReachAt (system rs config reader) Action.readings (fun w' _ =>
      Onward w w' ∧ w'.Quiet ∧ ∀ m ∈ w.task.slicer.resend k slots, w'.OnAir m) w now := by
  have hended := ended_of_running hreadable h hrun
  have hnext : (system rs config reader).next .feedback w =
      some { w with task := w.task.recv (.resend k slots), feedback := [] } := by
    simp only [system, next, stepFeedback, hfeedback]
    exact if_pos ⟨by simp [hended], htodo⟩
  refine .untimed hnext rfl
    ((canReach_sent (h.step trivial hnext) hrun hended hempty now).mono ?_)
  rintro w' time ⟨-, honward, hempty', htask, hfeedback', hsent⟩
  refine ⟨⟨honward.peers, honward.uplink, honward.seen, honward.floor, honward.running, honward.air,
    honward.draining, honward.drained⟩, ⟨by rw [htask], hempty', hfeedback'⟩, hsent⟩

/-- The input can be read, and its slices leave room in the window. -/
structure FitsWindow (reader : Reader) (g : Geometry) : Prop where
  fault : reader.fault = none
  short : (reader.blocks g).length < g.maxLiveSlices * g.blocksPerSlice

theorem FitsWindow.slices_le {g : Geometry} (h : FitsWindow reader g) :
    Chunks.divCeil (reader.blocks g).length g.blocksPerSlice ≤ g.maxLiveSlices :=
  (Chunks.divCeil_le_iff g.blocksPerSlice_pos).mpr h.short.le

theorem FitsWindow.readable {g : Geometry} (h : FitsWindow reader g) :
    SlicerTask.Readable reader g := by
  have hlive := g.maxLiveSlices_lt
  refine ⟨h.fault, ?_, h.slices_le.trans_lt (hlive.trans (by decide))⟩
  have hflat := Reader.length_flatten_take_le g reader (reader.blocks g).length
  rw [List.take_length, Reader.flatten_blocks h.fault] at hflat
  have hcount : (reader.blocks g).length < 2 ^ 32 :=
    h.short.trans_le ((Nat.mul_le_mul hlive.le g.blocksPerSlice_lt.le).trans (by norm_num))
  have hmul : (reader.blocks g).length * g.blockSize < 2 ^ 32 * 2 ^ 32 :=
    Nat.mul_lt_mul_of_lt_of_le hcount g.blockSize_lt.le (by norm_num)
  omega

/-- Once the slicer has drained its input, the end is to be sent, on its way, or out. -/
def Announced (w : World) : Prop := w.task.drained → w.task.ended = none →
  w.loop.draining ∨ ∃ bytes blocks, .eof bytes blocks ∈ w.task.todo ++ w.outbound

theorem Announced.afterLoop (h : w.Announced) {o : LoopOutcome}
    (hdraining : w.loop.draining → o.loop.draining) : (w.afterLoop o).Announced := by
  obtain ⟨verdict, heq⟩ := o.settle_eq
  unfold World.afterLoop
  rw [heq]
  exact fun hdrained hended => (h hdrained hended).imp_left hdraining

theorem announced_of_reachable (h : Labelled.Reachable (system rs config reader) w) :
    w.Announced := by
  refine Labelled.Reach.invariant_on (J := fun w => ∃ L, w.Sound rs config reader L)
    (I := Announced) (fun _ h => sound_of_reachable h) ?_ ?_ h
  · rintro w ⟨gathered, now, hstart⟩ hdrained
    obtain ⟨_, _, _, _, _, rfl⟩ := start_eq_ok hstart
    cases hdrained
  · rintro a w w' - ⟨L, hs⟩ - h hnext hdrained hended
    cases step_of_next hnext with
    | read hread =>
      obtain ⟨p, hp, -, -, hundrained, -, hcase⟩ := hs.task.read_cases hread
      rcases hcase with ⟨block, input, -, -, rfl⟩ | ⟨e, input, -, rfl⟩ | ⟨hlast, hfault, -, rfl⟩
      · cases hpush : w.task.slicer.push rs block <;>
          simp [SlicerTask.begin, hpush, hundrained] at hdrained
      · cases hended
      · rcases hend : w.task.slicer.endInput rs with e | ⟨slicer, messages⟩
        · simp [SlicerTask.begin, hend] at hended
        · obtain ⟨_, _, _, _, _, _, tail, rfl, -⟩ := hp.endInput hlast hfault hend
          exact .inr ⟨_, _, List.mem_append_left _
            (by simp only [SlicerTask.begin]; exact List.mem_concat_self)⟩
    | @feedback _ message rest hselect hfeedback =>
      have hdrained' : w.task.drained := by cases message <;> exact hdrained
      refine (h hdrained' (by simpa using hselect.1)).imp_right ?_
      rintro ⟨bytes, blocks, hmem⟩
      rw [hselect.2] at hmem
      exact ⟨bytes, blocks, List.mem_append_right _ hmem⟩
    | @queue _ message rest hrun htodo hroom =>
      refine (h hdrained hended).imp_right ?_
      rintro ⟨bytes, blocks, hmem⟩
      rw [htodo] at hmem
      refine ⟨bytes, blocks, ?_⟩
      simp only [List.mem_append, List.mem_cons] at hmem ⊢
      tauto
    | @egress _ message rest now hrun hout =>
      cases message with
      | shard =>
        refine Announced.afterLoop (w := { w with outbound := rest }) (fun hdrained hended => ?_) id
          hdrained hended
        refine (h hdrained hended).imp_right ?_
        rintro ⟨bytes, blocks, hmem⟩
        refine ⟨bytes, blocks, ?_⟩
        simpa [hout] using hmem
      | eof bytes blocks =>
        obtain ⟨verdict, heq⟩ := (w.loop.egress now (.eof bytes blocks)).settle_eq
        unfold World.afterLoop
        rw [heq]
        exact .inl rfl
    | control now message =>
      obtain ⟨group, feedback, heq⟩ := control_cases w.loop now message
      exact h.afterLoop (by rw [heq]; exact id) hdrained hended
    | tick | deadline | egressClosed => exact h.afterLoop (by exact id) hdrained hended
    | turn | loseDown | loseUp => exact h hdrained hended

/-- A read takes something of the input, or finds its end. -/
theorem exists_read (hfits : FitsWindow reader config.geometry)
    (h : Labelled.Reachable (system rs config reader) w) (hrun : w.loop.verdict = none)
    (hquiet : w.Quiet) (hdrained : w.task.drained = false) : ∃ task,
      (system rs config reader).next .read w = some { w with task := task } ∧
      (task.input.length < w.task.input.length ∨
        task.input.length = w.task.input.length ∧ task.drained) := by
  have hended := ended_of_running hfits.readable h hrun
  have hfull : ¬ w.task.slicer.window.isFull := fun hfull =>
    absurd (length_of_full h hdrained hfull) (Nat.not_le.mpr hfits.short)
  have hguard : w.task.AtSelect ∧ ¬ w.task.drained ∧ ¬ w.task.slicer.window.isFull :=
    ⟨⟨by simp [hended], hquiet.todo⟩, by simp [hdrained], hfull⟩
  have hbegin (t : SlicerTask) (result : Except Panic (Slicer × List Outbound)) :
      (t.begin result).input = t.input ∧ (t.begin result).drained = t.drained := by
    cases result <;> exact ⟨rfl, rfl⟩
  have hread (task : SlicerTask) (ht : w.task.read rs = some task) :
      (system rs config reader).next .read w = some { w with task := task } := by
    simp [system, next, stepRead, ht]
  rcases hinput : w.task.input with _ | ⟨item, rest⟩
  · refine ⟨_, hread _ (by rw [SlicerTask.read, if_pos hguard, hinput]), .inr ?_⟩
    rw [(hbegin _ _).1, (hbegin _ _).2]
    exact ⟨rfl, rfl⟩
  · cases item with
    | ok block =>
      refine ⟨_, hread _ (by rw [SlicerTask.read, if_pos hguard, hinput]), .inl ?_⟩
      rw [(hbegin _ _).1]
      exact Nat.lt_succ_self _
    | error e =>
      exact ⟨_, hread _ (by rw [SlicerTask.read, if_pos hguard, hinput]), .inl (Nat.lt_succ_self _)⟩

/-- An input that leaves room in the window is read to its end, and the end announced. -/
theorem canReach_drained (hfits : FitsWindow reader config.geometry)
    (h : Labelled.Reachable (system rs config reader) w) (hrun : w.loop.verdict = none) (now : ℕ) :
    Labelled.CanReachAt (system rs config reader) Action.readings (fun w' time => time = now ∧
      Onward w w' ∧ w'.Quiet ∧ w'.task.drained ∧ w'.loop.draining) w now := by
  let left (w : World) : ℕ := w.task.input.length + (if w.task.drained then 0 else 1)
  refine ((canReach_quiet hfits.readable h hrun now).reachable h).trans ?_
  rintro w₀ time₀ ⟨h₀, hnow₀, honward₀, hquiet₀, -, -⟩
  refine Labelled.canReachAt_of_rank (I := fun w' time =>
    Labelled.Reachable (system rs config reader) w' ∧ time = now ∧ Onward w w' ∧ w'.Quiet) left ?_
    ⟨h₀, hnow₀, honward₀, hquiet₀⟩
  rintro w₁ time₁ ⟨h₁, rfl, honward₁, hquiet₁⟩
  have hrun₁ := honward₁.running
  have hended := ended_of_running hfits.readable h₁ hrun₁
  cases hdrained : w₁.task.drained with
  | true =>
    refine .here (.inl ⟨rfl, honward₁, hquiet₁, hdrained, ?_⟩)
    rcases announced_of_reachable h₁ hdrained hended with hdraining | ⟨_, _, hmem⟩
    · exact hdraining
    · rw [hquiet₁.todo, hquiet₁.outbound] at hmem
      cases hmem
  | false =>
    obtain ⟨task, hnext, hless⟩ := exists_read hfits h₁ hrun₁ hquiet₁ hdrained
    have h₂ : Labelled.Reachable (system rs config reader) _ := h₁.step trivial hnext
    refine .untimed hnext rfl
      (((canReach_quiet hfits.readable h₂ hrun₁ time₁).reachable h₂).mono ?_)
    rintro w₃ time₃ ⟨h₃, hnow₃, honward₃, hquiet₃, hinput, hdrained'⟩
    have honward₂ : Onward w₁ w₃ := ⟨honward₃.peers, honward₃.uplink, honward₃.seen,
      honward₃.floor, honward₃.running, honward₃.air, honward₃.draining,
      fun hd => by simp [hdrained] at hd⟩
    refine .inr ⟨⟨h₃, hnow₃, honward₁.trans honward₂, hquiet₃⟩, ?_⟩
    simp only [left, hinput, hdrained', hdrained, Bool.false_eq_true, if_false]
    rcases hless with hless | ⟨heq, hend⟩
    · split_ifs <;> omega
    · simp [hend, heq]

end World
end Scuttlecast
