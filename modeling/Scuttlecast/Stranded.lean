import Scuttlecast.Supplied

/-! How a transfer that goes well can strand its sender. The only receiver has asked for what it
lacked, has got it, ends well and leaves, while what it asked for is queued once more: nobody reads the
channel from then on, and the slicer waits in it for good. -/
namespace Scuttlecast
namespace World

variable {rs : ReedSolomon} {config : Config} {reader : Reader} {L : Ledger} {w w' : World} {r : ℕ}

/-- The receiver has asked for some block of a slice, and the request is still on its way. -/
def Asked (config : Config) (reader : Reader) (r : ℕ) (w : World) (k : ℕ) : Prop :=
  ∃ nak slot, .nak nak ∈ w.uplink ∧ nak.receiverId = r ∧ nak.sliceNo = k ∧ slot ∈ nak.missing ∧
    slot < (Chunks.chunk config.geometry.blocksPerSlice (reader.blocks config.geometry) k).length

theorem Sound.length_slice (h : w.Sound rs config reader L) (k : ℕ) : (L.slice k).length =
    (Chunks.chunk config.geometry.blocksPerSlice (reader.blocks config.geometry) k).length := by
  rw [Ledger.slice, h.blocks, h.geometry]
  simp [Chunks.chunk]

/-- Of these slices the receiver needs all, and has nothing. -/
def Lacks (config : Config) (reader : Reader) (w : World) (r : ℕ) (ks : List ℕ) : Prop :=
  ∀ k ∈ ks, w.reached r ≤ k ∧ k < slices config reader ∧
    (w.peers r).session.assembler.slices.lookup k = none

section Room

variable (htransfer : config.transferId < 2 ^ 64) (hblocks : config.geometry.blocksPerSlice ≤ 840)

include htransfer hblocks

/-- Told the end, a receiver asks for all that it lacks. -/
theorem Able.canReach_asked (ha : w.Able reader r)
    (h : Labelled.Reachable (system rs config reader) w) (hd : w.Drained) {ks : List ℕ}
    (hlacks : w.Lacks config reader r ks) (now : ℕ) :
    Labelled.CanReachAt (system rs config reader) Action.readings (fun w' _ =>
      w'.Drained ∧ Beside r w w' ∧
      (w'.Finished (slices config reader) r ∨ w'.Able reader r) ∧
      ∀ k ∈ ks, w'.Asked config reader r k) w now := by
  obtain ⟨done, hair⟩ := hd.told
  obtain ⟨L, hs⟩ := sound_of_reachable h
  have hable := ha.session htransfer hblocks h hs
  obtain ⟨time, htime, hdue⟩ := (w.peers r).session.exists_due now
  let b : Session.Branch := .packets [(time, .control (.done done))]
  obtain ⟨hended, htotal, hassembler, hasks⟩ :=
    hable.branch_done htransfer ha.id hblocks (hs.air r _ (hair r)) time
  have henabled : (w.peers r).session.Enabled time b := trivial
  have hopen : Sink.closed ⟨0, false⟩ = false := rfl
  have hdelivers : w.Delivers r b := delivers_singleton (hair r) time
  obtain ⟨w₁, hnext, hd₁, hbeside, -, huplink, hcase⟩ :=
    ha.next_turn htransfer hblocks h hd henabled hdelivers hended htotal hopen
  refine .step htime hnext ⟨List.cons_ne_nil _ _, by simp [Action.readings, b]⟩
    (.here ⟨hd₁, hbeside, hcase.imp_right And.left, fun k hk => ?_⟩)
  obtain ⟨hreached, hlt, hnone⟩ := hlacks k hk
  have hincomplete : ((w.peers r).session.branch time b).session.assembler.isComplete k = false := by
    rw [hassembler]
    simp [Assembler.isComplete, Assembler.onDone, hnone]
  obtain ⟨slot, rest, hsent, hslot, -⟩ :=
    hasks k hreached (by rwa [hs.slices]) hincomplete (hdue k)
  refine ⟨⟨(w.peers r).session.transferId, (w.peers r).session.receiverId, k, slot :: rest⟩, slot, ?_,
    (floors_of_reachable h).ids r, rfl, List.mem_cons_self, ?_⟩
  · rw [huplink]
    exact List.mem_append_right _ (Session.mem_turn_sent hsent)
  · rwa [← hs.length_slice]

/-- So it comes to be given the input, while its requests are still on their way. -/
theorem Able.canReach_served (ha : w.Able reader r)
    (h : Labelled.Reachable (system rs config reader) w)
    (hfits : FitsWindow reader config.geometry) (hd : w.Drained) {ks : List ℕ}
    (hlacks : w.Lacks config reader r ks) (now : ℕ) :
    Labelled.CanReachAt (system rs config reader) Action.readings (fun w' _ =>
      w'.Drained ∧ Beside r w w' ∧ w'.Finished (slices config reader) r ∧
      ∀ k ∈ ks, w'.Asked config reader r k) w now := by
  refine ((ha.canReach_asked htransfer hblocks h hd hlacks now).reachable h).trans ?_
  rintro w₁ time₁ ⟨h₁, hd₁, hbeside₁, hfinished | hable, hasked⟩
  · exact .here ⟨hd₁, hbeside₁, hfinished, hasked⟩
  · refine (hable.canReach_finished htransfer hblocks h₁ hfits hd₁ time₁).mono ?_
    rintro w₂ time₂ ⟨hd₂, hbeside₂, hfinished⟩
    refine ⟨hd₂, hbeside₁.trans hbeside₂, hfinished, fun k hk => ?_⟩
    obtain ⟨nak, slot, hmem, hnak⟩ := hasked k hk
    exact ⟨nak, slot, hbeside₂.uplink hmem, hnak⟩

end Room

/-- All that was asked for is asked for once more, and the slicer is to send a shard of each slice at
least. -/
theorem canReach_requested (h : Labelled.Reachable (system rs config reader) w)
    (hrun : w.loop.verdict = none) (hmember : w.loop.group.contains r) {ks : List ℕ}
    (hnodup : ks.Nodup) (hasked : ∀ k ∈ ks, w.Asked config reader r k)
    (hfloor : ∀ k ∈ ks, w.loop.group.neededFrom ≤ k) {now time : ℕ} (htime : now ≤ time)
    (hrested : ∀ k ∈ ks, ∀ slot, ¬ w.loop.group.HeldOff (k, slot) time)
    (hkept : ∀ k ∈ ks, ∀ slot slots,
      slot < (Chunks.chunk config.geometry.blocksPerSlice (reader.blocks config.geometry) k).length →
        slot ∈ slots → 0 < w.task.slicer.answer (.resend k slots)) :
    Labelled.CanReachAt (system rs config reader) Action.readings (fun w' _ =>
      Onward w w' ∧ w'.task = w.task ∧
      w.task.slicer.owed w.feedback + ks.length ≤ w.task.slicer.owed w'.feedback) w now := by
  induction ks generalizing w now with
  | nil => exact .here ⟨.refl hrun, rfl, le_rfl⟩
  | cons k ks ih =>
    rw [List.forall_mem_cons] at hasked hfloor hrested hkept
    obtain ⟨hnot, hrest⟩ := List.nodup_cons.mp hnodup
    obtain ⟨nak, slot, hmem, hid, rfl, hslot, hlt⟩ := hasked.1
    obtain ⟨w₁, slots, hnext, honward, htask, -, hfeedback, hpassed, hothers⟩ :=
      next_nak h hrun hmem (hid ▸ hmember) hfloor.1 hslot (hrested.1 slot)
    have howed : w.task.slicer.owed w.feedback + 1 ≤ w.task.slicer.owed w₁.feedback := by
      have hsends := hkept.1 slot slots hlt hpassed
      rw [hfeedback, Slicer.owed_append, Slicer.owed_cons, Slicer.owed_nil]
      omega
    refine .once htime hnext rfl ((ih (h.step trivial hnext) honward.running
      ((honward.members r).trans hmember) hrest ?_ ?_ le_rfl ?_ ?_).mono ?_)
    · intro k hk
      rw [Asked, honward.uplink]
      exact hasked.2 k hk
    · rw [honward.floor]
      exact hfloor.2
    · rintro k hk slot ⟨sent, hsent, hsoon⟩
      have hother : k ≠ nak.sliceNo := fun heq => hnot (heq ▸ hk)
      rw [hothers (k, slot) hother] at hsent
      exact hrested.2 k hk slot ⟨sent, hsent, hsoon⟩
    · rw [htask]
      exact hkept.2
    · rintro w₂ time' ⟨honward', htask', howed'⟩
      rw [htask] at htask' howed'
      refine ⟨honward.trans honward', htask', ?_⟩
      rw [List.length_cons]
      omega

/-- A slicer with more to queue than there is room for fills the channel. -/
theorem canReach_full (h : Labelled.Reachable (system rs config reader) w)
    (hrun : w.loop.verdict = none) (hended : w.task.ended = none) (hmore : ¬ w.Fits) (now : ℕ) :
    Labelled.CanReachAt (system rs config reader) Action.readings (fun w' time => time = now ∧
      Onward w w' ∧ w'.task.ended = none ∧ w'.outbound.length = outboundCapacity ∧ ¬ w'.Fits) w
      now := by
  refine Labelled.canReachAt_of_rank (I := fun w' time =>
    Labelled.Reachable (system rs config reader) w' ∧ time = now ∧ Onward w w' ∧
      w'.task.ended = none ∧ ¬ w'.Fits)
    (fun w => (outboundCapacity - w.outbound.length) + w.feedback.length) ?_
    ⟨h, rfl, .refl hrun, hended, hmore⟩
  rintro w₁ time ⟨h₁, rfl, honward, hended₁, hmore₁⟩
  have horderly := orderly_of_reachable h₁
  rcases horderly.room.lt_or_eq with hroom | hfull
  swap
  · exact .here (.inl ⟨rfl, honward, hended₁, hfull, hmore₁⟩)
  rw [Fits, not_le, SlicerTask.backlog] at hmore₁
  rcases htodo : w₁.task.todo with _ | ⟨message, rest⟩
  · rcases hfeedback : w₁.feedback with _ | ⟨message, rest⟩
    · simp only [htodo, hfeedback, List.length_nil, Slicer.owed_nil] at hmore₁
      omega
    have hdone : message ≠ .done := by
      rintro rfl
      exact horderly.running honward.running (hfeedback ▸ List.mem_cons_self)
    have hnext : (system rs config reader).next .feedback w₁ =
        some { w₁ with task := w₁.task.recv message, feedback := rest } := by
      simp only [system, next, stepFeedback, hfeedback]
      exact if_pos ⟨by simp [hended₁], htodo⟩
    obtain ⟨hbacklog, hended'⟩ :=
      SlicerTask.backlog_recv htodo (hfeedback ▸ horderly.ordered) hdone
    have hdrained : (w₁.task.recv message).drained = w₁.task.drained := by cases message <;> rfl
    refine .untimed hnext rfl (.here (.inr ⟨⟨h₁.step trivial hnext, rfl, honward.trans
      ⟨rfl, rfl, fun _ => rfl, rfl, honward.running, fun _ => List.Subset.refl _, id,
        fun hd => hdrained.trans hd⟩, hended'.trans hended₁, ?_⟩, ?_⟩))
    · rw [Fits, not_le, hbacklog, ← hfeedback, SlicerTask.backlog]
      exact hmore₁
    · exact Nat.add_lt_add_left (Nat.lt_succ_self _) _
  · have hnext : (system rs config reader).next .queue w₁ = some _ := next_queue hended₁ htodo hroom
    refine .untimed hnext rfl (.here (.inr ⟨⟨h₁.step trivial hnext, rfl, honward.trans
      ⟨rfl, rfl, fun _ => rfl, rfl, honward.running, fun _ => List.Subset.refl _, id, id⟩, hended₁,
      ?_⟩, ?_⟩))
    · rw [htodo, List.length_cons] at hmore₁
      simp only [Fits, not_le, SlicerTask.backlog, List.length_append, List.length_singleton]
      omega
    · simp only [List.length_append, List.length_singleton]
      omega

/-- When the only participant leaves, the loop is over, and what there is to queue is as before. -/
theorem next_leave (hrun : w.loop.verdict = none) (halone : ∀ id, w.loop.group.contains id → id = r)
    {transferId : ℕ} (hleave : .leave transferId r ∈ w.uplink) (now : ℕ) :
    ∃ w', (system rs config reader).next (.control now (.leave transferId r)) w = some w' ∧
      w'.loop.verdict = some (.error .noParticipants) ∧ w'.peers = w.peers ∧ w'.task = w.task ∧
      w'.outbound = w.outbound ∧ (w'.Fits → w.Fits) := by
  have hempty : (w.loop.group.leave r).2.len = 0 := by
    rw [Group.len_eq_zero_iff]
    intro id
    rw [Group.standing_leave]
    split_ifs with hid
    · rfl
    · have hout : w.loop.group.contains id = false := by
        simpa using fun hin => hid (halone id hin)
      rw [Group.contains_eq] at hout
      simpa using hout
  have hsettle : (w.loop.control now (.leave transferId r)).settle =
      { loop := { w.loop with
          group := (w.loop.group.leave r).2
          verdict := some (.error .noParticipants) }
        feedback := [.done] } := by
    simp [LoopOutcome.settle, SendLoop.control, hrun, SendLoop.checkTop, hempty]
  have hnext : (system rs config reader).next (.control now (.leave transferId r)) w =
      some (w.afterLoop (w.loop.control now (.leave transferId r))) :=
    if_pos ⟨by rw [hrun]; rfl, hleave⟩
  refine ⟨_, hnext, ?_, rfl, rfl, rfl, fun hfits => ?_⟩
  · rw [afterLoop, hsettle]
  · rw [afterLoop, hsettle] at hfits
    simpa [Fits, SlicerTask.backlog, Slicer.answer] using hfits

/-- From any state in which the only participant runs as it should and has nothing of more slices than
the channel has room for: the run can go on so that it is given the whole input, ends well and leaves,
and the sender never returns. -/
theorem canReach_stranded (hfits : FitsWindow reader config.geometry)
    (htransfer : config.transferId < 2 ^ 64) (hblocks : config.geometry.blocksPerSlice ≤ 840)
    (h : Labelled.Reachable (system rs config reader) w) (hrun : w.loop.verdict = none)
    (ha : w.Able reader r) (halone : ∀ id, w.loop.group.contains id → id = r) {ks : List ℕ}
    (hnodup : ks.Nodup) (hlacks : w.Lacks config reader r ks) (hlong : outboundCapacity < ks.length)
    {now : ℕ} (hstale : w.loop.group.stale now silenceTimeout = []) :
    Labelled.CanReachAt (system rs config reader) Action.readings (fun w' _ =>
      Labelled.Reachable (system rs config reader) w' ∧
      w'.loop.verdict = some (.error .noParticipants) ∧ w'.outbound.length = outboundCapacity ∧
      (∃ summary, (w'.peers r).ended = some (.returned (.ok summary))) ∧
      ¬ Labelled.CanReach (system rs config reader) (fun w => w.task.ended.isSome) w') w now := by
  obtain ⟨p, hp⟩ := Table.mem_iff_lookup.mp (Group.contains_iff.mp ha.member)
  have hbehind : w.loop.group.neededFrom ≤ w.reached r := ((floors_of_reachable h).behind r p hp).2
  -- the whole input is sent, its end told, and the receiver asks for what it lacks and is given it
  refine ((canReach_told hfits h hrun hstale).reachable h).trans ?_
  rintro w₁ time₁ ⟨h₁, honward, hd₁⟩
  have hlacks₁ : w₁.Lacks config reader r ks := by
    intro k hk
    rw [reached, honward.peers]
    exact hlacks k hk
  refine (((honward.able ha).canReach_served htransfer hblocks h₁ hfits hd₁ hlacks₁ time₁).reachable
    h₁).trans ?_
  rintro w₂ time₂ ⟨h₂, hd₂, hbeside₁, hfinished, hasked⟩
  have hbeside := (honward.beside r).trans hbeside₁
  -- the sender hears the requests once more
  obtain ⟨time, htime, hrested⟩ := w₂.exists_rested time₂
  have hfloor : ∀ k ∈ ks, w₂.loop.group.neededFrom ≤ k := by
    intro k hk
    rw [hbeside.floor]
    exact hbehind.trans (hlacks k hk).1
  obtain ⟨L, hs⟩ := sound_of_reachable h₂
  have hkept : ∀ k ∈ ks, ∀ slot slots,
      slot < (Chunks.chunk config.geometry.blocksPerSlice (reader.blocks config.geometry) k).length →
        slot ∈ slots → 0 < w₂.task.slicer.answer (.resend k slots) := by
    intro k hk slot slots hslot hmem
    rw [← hs.length_slice] at hslot
    obtain ⟨_, _, _, hresent⟩ := hd₂.mem_resend h₂ hfits.readable hs (hfloor k hk) hslot hmem
    exact List.length_pos_of_mem hresent
  refine ((canReach_requested h₂ hd₂.running ((hbeside.members r).trans ha.member) hnodup hasked
    hfloor htime (fun k _ slot => hrested (k, slot)) hkept).reachable h₂).trans ?_
  rintro w₃ time₃ ⟨h₃, honward₃, htask, howed⟩
  have hmore : ¬ w₃.Fits := by
    rw [Fits, not_le, SlicerTask.backlog, htask]
    omega
  -- the slicer fills the channel, and then the receiver leaves
  refine ((canReach_full h₃ honward₃.running (ended_of_running hfits.readable h₃ honward₃.running)
    hmore time₃).reachable h₃).trans ?_
  rintro w₄ time₄ ⟨h₄, rfl, honward₄, hended, hfull, hmore₄⟩
  have honward' := honward₃.trans honward₄
  obtain ⟨transferId, hleave⟩ := hfinished.left
  obtain ⟨w₅, hnext, hverdict, hpeers, htask₅, hout, hback⟩ := next_leave honward'.running
    (fun id hin => halone id (by rwa [← hbeside.members, ← honward'.members]))
    (by rw [honward'.uplink]; exact hleave) time₄
  have h₅ := h₄.step trivial hnext
  refine .once le_rfl hnext rfl (.here ⟨h₅, hverdict, by rw [hout]; exact hfull, ?_, fun hreach => ?_⟩)
  · obtain ⟨summary, hok⟩ := hfinished.ok
    exact ⟨summary, by rw [hpeers, honward'.peers]; exact hok⟩
  · refine hmore₄ (hback (fits_of_canReach h₅ (by rw [hverdict]; rfl) ?_ ?_))
    · rw [htask₅]
      exact hended
    · exact (canReach_ended_iff hfits.readable h₅).mp hreach

end World

/-- An input of `n + 1` blocks of zeros, for blocks of two bytes. -/
def Reader.zeros (n : ℕ) : Reader := .single (List.replicate (2 * n + 2) 0) (List.cons_ne_nil _ _)

theorem Reader.length_zeros (n : ℕ) : (zeros n).bytes.length = 2 * n + 2 := by
  simp [zeros, single, bytes]

theorem Reader.length_blocks_zeros (n maxLiveSlices : ℕ)
    (h : 0 < maxLiveSlices ∧ maxLiveSlices < 2 ^ 16) :
    ((zeros n).blocks (Config.tiny maxLiveSlices h).geometry).length = n + 1 := by
  have hfault : (zeros n).fault = none := rfl
  have hsize : (Config.tiny maxLiveSlices h).geometry.blockSize = 2 := rfl
  simp only [blocks, hfault, hsize, Chunks.length_chunks, length_zeros, Chunks.divCeil]
  omega

namespace World

/-- Of 4097 slices, each of one block, every one is to be sent again when the only receiver leaves,
done: the channel has room for all but one of them. -/
theorem backlog_outlives_the_loop : ∃ w,
    Labelled.Reachable (system .interpolated (.tiny 4098) (.zeros 4096)) w ∧
      w.loop.verdict = some (.error .noParticipants) ∧ w.outbound.length = outboundCapacity ∧
      (∃ summary, (w.peers 0).ended = some (.returned (.ok summary))) ∧
      ¬ Labelled.CanReach (system .interpolated (.tiny 4098) (.zeros 4096))
        (fun w => w.task.ended.isSome) w := by
  have hblocks := Reader.length_blocks_zeros 4096 4098 (by decide)
  have hsize : slices (.tiny 4098) (.zeros 4096) = 4097 := by
    rw [slices, hblocks]
    rfl
  have hfits : FitsWindow (.zeros 4096) (Config.tiny 4098).geometry := by
    refine ⟨rfl, ?_⟩
    rw [hblocks]
    decide
  obtain ⟨w, hstart, -⟩ := @exists_start (.tiny 4098) .interpolated (.zeros 4096) (.inl rfl)
  have h : Labelled.Reachable (system .interpolated (.tiny 4098) (.zeros 4096)) w :=
    .start ⟨_, _, hstart⟩
  have hunheard := unheard_start hstart
  obtain ⟨-, _, assembler, -, hassembler, heq⟩ := start_eq_ok hstart
  obtain ⟨-, -, hslices, -, -, -⟩ := Assembler.new_wf hassembler
  have hable : w.Able (.zeros 4096) 0 := by
    rw [heq]
    exact ⟨by decide, rfl, rfl, List.nil_prefix⟩
  have halone : ∀ id, w.loop.group.contains id → id = 0 := by
    intro id hin
    obtain ⟨p, hp⟩ := Table.mem_iff_lookup.mp (Group.contains_iff.mp hin)
    exact (hunheard.alone id p hp).1
  have hlacks : w.Lacks (.tiny 4098) (.zeros 4096) 0 (List.range 4097) := by
    intro k hk
    refine ⟨by simp [reached, hunheard.nextNeeded], hsize ▸ List.mem_range.mp hk, ?_⟩
    rw [heq]
    simp [Session.fresh, hslices]
  have hstale : w.loop.group.stale 0 silenceTimeout = [] := by
    rw [heq]
    rfl
  obtain ⟨_, w', -, -, hstranded⟩ := (canReach_stranded hfits (by decide) (by decide) h
    hunheard.verdict hable halone List.nodup_range hlacks (by simp) hstale).canReach
  exact ⟨w', hstranded⟩

end World
end Scuttlecast
