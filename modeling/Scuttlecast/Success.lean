import Scuttlecast.Supplied
import Scuttlecast.Roster

/-! Success is never out of reach. As long as the loop goes on, and somebody in the group runs as it
should, the run can be continued so that all such receivers are given the input and the sender
returns well. -/
namespace Scuttlecast

/-- Where somebody is left, the checks at the top of the loop end it only well. -/
theorem LoopOutcome.settle_verdict {o : LoopOutcome} (hrun : o.loop.verdict = none)
    (hmembers : o.loop.group.len ≠ 0) :
    o.settle.loop.verdict = none ∧ ¬ (o.loop.draining ∧ o.loop.group.allComplete) ∨
      o.settle.loop.verdict = some (.ok ()) := by
  have hloop : o.settle.loop = o.loop.checkTop := by
    rw [LoopOutcome.settle, hrun]
    rfl
  rw [hloop, SendLoop.checkTop, if_neg hmembers]
  split_ifs with hdone
  · exact .inr rfl
  · exact .inl ⟨hrun, hdone⟩

namespace World

variable {rs : ReedSolomon} {config : Config} {reader : Reader} {L : Ledger} {w w' : World} {r n : ℕ}

section Room

variable (htransfer : config.transferId < 2 ^ 64) (hblocks : config.geometry.blocksPerSlice ≤ 840)

include htransfer hblocks in
/-- One after the other, all that run as they should are given the input. -/
theorem canReach_all_finished (h : Labelled.Reachable (system rs config reader) w)
    (hfits : FitsWindow reader config.geometry) (hd : w.Drained) {members : List ℕ}
    (hall : ∀ r ∈ members, w.Able reader r ∨ w.Finished (World.slices config reader) r) (now : ℕ) :
    Labelled.CanReachAt (system rs config reader) Action.readings (fun w' _ => w'.Drained ∧
      (∀ id, w'.loop.group.contains id = w.loop.group.contains id) ∧
      ∀ r, r ∈ members ∨ w.Finished (World.slices config reader) r →
        w'.Finished (World.slices config reader) r) w now := by
  induction members generalizing w now with
  | nil => exact .here ⟨hd, fun _ => rfl, fun r hr => hr.resolve_left List.not_mem_nil⟩
  | cons r rest ih =>
    have hrest := fun r' hr => hall r' (List.mem_cons_of_mem r hr)
    rcases hall r List.mem_cons_self with hable | hfinished
    · refine ((hable.canReach_finished htransfer hblocks h hfits hd now).reachable h).trans ?_
      rintro w₁ time₁ ⟨h₁, hd₁, hbeside, hfinished⟩
      have hstays (r' : ℕ) (hr : w.Finished (World.slices config reader) r') :
          w₁.Finished (World.slices config reader) r' := by
        rcases eq_or_ne r' r with rfl | hne
        · exact hfinished
        · exact hbeside.finished hne hr
      have hall₁ : ∀ r' ∈ rest, w₁.Able reader r' ∨
          w₁.Finished (World.slices config reader) r' := by
        intro r' hr
        rcases eq_or_ne r' r with rfl | hne
        · exact .inr hfinished
        · exact (hrest r' hr).imp (hbeside.able hne) (hstays r')
      refine (ih h₁ hd₁ hall₁ time₁).mono ?_
      rintro w₂ time₂ ⟨hd₂, hmembers, hdone⟩
      refine ⟨hd₂, fun id => (hmembers id).trans (hbeside.members id), fun r' hr => ?_⟩
      rw [List.mem_cons, or_assoc] at hr
      rcases hr with rfl | hr | hr
      · exact hdone r' (.inr hfinished)
      · exact hdone r' (.inl hr)
      · exact hdone r' (.inr (hstays r' hr))
    · refine (ih h hd hrest now).mono ?_
      rintro w₁ time₁ ⟨hd₁, hmembers, hdone⟩
      refine ⟨hd₁, hmembers, fun r' hr => ?_⟩
      rw [List.mem_cons, or_assoc] at hr
      rcases hr with rfl | hr
      · exact hdone r' (.inr hfinished)
      · exact hdone r' hr

end Room

/-- The slicer still waits, and nothing is left to it that leads to a shard. -/
structure Flushed (w : World) : Prop where
  outbound : w.outbound = []
  todo : w.task.todo = []
  ended : w.task.ended = none
  feedback : ∀ k slots, .resend k slots ∉ w.feedback

theorem Flushed.afterLoop (h : w.Flushed) {o : LoopOutcome}
    (hfeedback : ∀ k slots, .resend k slots ∉ o.feedback) : (w.afterLoop o).Flushed := by
  obtain ⟨verdict, heq⟩ := o.settle_eq
  unfold World.afterLoop
  rw [heq]
  refine ⟨h.outbound, h.todo, h.ended, fun k slots hmem => ?_⟩
  simp only [List.mem_append, h.feedback, hfeedback, false_or] at hmem
  split_ifs at hmem <;> simp at hmem

theorem Flushed.fits (h : w.Flushed) : w.Fits := by
  have howed : w.task.slicer.owed w.feedback = 0 := by
    refine List.sum_eq_zero fun count hcount => ?_
    obtain ⟨message, hmem, rfl⟩ := List.mem_map.mp hcount
    cases message with
    | resend k slots => exact absurd hmem (h.feedback k slots)
    | _ => rfl
  simp [Fits, SlicerTask.backlog, h.outbound, h.todo, howed]

/-- Everybody in the group was heard of at some time. -/
theorem seen_of_reachable (h : Labelled.Reachable (system rs config reader) w) {id : ℕ}
    {seen : Option ℕ} (hseen : w.loop.group.seen id = some seen) : ∃ t, seen = some t := by
  obtain ⟨w₀, actions, ⟨gathered, now, hstart⟩, hexec⟩ := Labelled.reachable_iff_exec.mp h
  have hloop : Labelled.exec (SendLoop.loops config gathered) (heard rs actions w₀) w₀.loop =
      some w.loop := loop_exec hexec
  obtain ⟨-, _, _, -, -, rfl⟩ := start_eq_ok hstart
  exact ⟨_, (SendLoop.enrolled_of_exec hloop id).heard seen hseen⟩

/-- Once the end is out, the group knows how many slices there are. -/
theorem totalSlices_of_draining (h : Labelled.Reachable (system rs config reader) w)
    (hdraining : w.loop.draining) :
    w.loop.group.totalSlices = some (World.slices config reader) := by
  obtain ⟨w₀, actions, ⟨gathered, now, hstart⟩, hexec⟩ := Labelled.reachable_iff_exec.mp h
  obtain ⟨L, hs⟩ := sound_of_reachable h
  have hattends := (attends hstart hexec).1
  rw [hattends.slices, (total_eq hs hattends hdraining).2, hs.slices]

/-- A tick long after everybody but those who have reached the end was heard of ends the loop
well. -/
theorem canReach_ok_of_tick (hrun : w.loop.verdict = none) (hdraining : w.loop.draining)
    (hflushed : w.Flushed) {latest : ℕ}
    (hseen : ∀ id seen, w.loop.group.seen id = some seen → ∃ t, seen = some t ∧
      (t ≤ latest ∨ t = latest + 1 ∧ w.loop.group.standing id = some true))
    (hmember : w.loop.group.seen r = some (some (latest + 1))) :
    Labelled.CanReachAt (system rs config reader) Action.readings (fun w' _ =>
      w'.loop.verdict = some (.ok ()) ∧ w'.peers = w.peers ∧ w'.Flushed) w (latest + 1) := by
  let now := latest + 1 + silenceTimeout
  have hnext : (system rs config reader).next (.tick now false w.loop.covering) w =
      some (w.afterLoop (w.loop.tick now false w.loop.covering)) := if_pos (by rw [hrun]; rfl)
  have hstanding (id : ℕ) : (w.loop.tick now false w.loop.covering).loop.group.standing id =
      if id ∈ (w.loop.group.stale now silenceTimeout).map Prod.fst then none
      else w.loop.group.standing id := Group.standing_reapSilent now silenceTimeout
  have hspared : r ∉ (w.loop.group.stale now silenceTimeout).map Prod.fst := by
    rw [Group.mem_stale_iff]
    rintro ⟨t, ht, hlt⟩
    rw [hmember, Option.some.injEq, Option.some.injEq] at ht
    simp only [now] at hlt
    omega
  have hthere : (w.loop.tick now false w.loop.covering).loop.group.len ≠ 0 := by
    obtain ⟨complete, hstood⟩ := Group.exists_standing_of_seen hmember
    intro hzero
    have hnone := Group.len_eq_zero_iff.mp hzero r
    rw [hstanding, if_neg hspared, hstood] at hnone
    cases hnone
  have hcomplete : (w.loop.tick now false w.loop.covering).loop.group.allComplete := by
    refine Group.allComplete_iff.mpr ⟨hthere, fun id hfalse => ?_⟩
    rw [hstanding] at hfalse
    split_ifs at hfalse with hstale
    have hcontains := w.loop.group.contains_eq id
    rw [hfalse, Group.contains_eq_seen] at hcontains
    obtain ⟨seen, hsome⟩ := Option.isSome_iff_exists.mp hcontains
    obtain ⟨t, rfl, hle | ⟨-, htrue⟩⟩ := hseen id seen hsome
    · refine hstale (Group.mem_stale_iff.mpr ⟨t, hsome, ?_⟩)
      simp only [now]
      omega
    · rw [htrue] at hfalse
      cases hfalse
  refine .once (Nat.le_add_right ..) hnext rfl
    (.here ⟨?_, rfl, hflushed.afterLoop fun k slots hmem => ?_⟩)
  · rcases LoopOutcome.settle_verdict (o := w.loop.tick now false w.loop.covering) hrun hthere with
      ⟨-, hopen⟩ | hok
    · exact absurd ⟨hdraining, hcomplete⟩ hopen
    · exact hok
  · simp [SendLoop.tick] at hmem

/-- After a last report that is heard later than anything before, whoever was heard of so late has
reached the end. -/
theorem seen_of_report (h : Labelled.Reachable (system rs config reader) w)
    (hdraining : w.loop.draining) {stats : Stats}
    (hneeded : World.slices config reader ≤ stats.nextNeededSlice) {before : Option ℕ}
    (hbefore : w.loop.group.seen stats.receiverId = some before) {latest : ℕ}
    (hlatest : ∀ id t, w.loop.group.seen id = some (some t) → t ≤ latest) :
    let o := w.loop.control (latest + 1) (.stats stats)
    o.loop.group.seen stats.receiverId = some (some (latest + 1)) ∧
      ∀ id seen, o.loop.group.seen id = some seen → ∃ t, seen = some t ∧
        (t ≤ latest ∨ t = latest + 1 ∧ o.loop.group.standing id = some true) := by
  intro o
  have hseen (id : ℕ) : o.loop.group.seen id = _ := SendLoop.seen_onStats (latest + 1) stats
  have hstanding (id : ℕ) : o.loop.group.standing id = _ :=
    SendLoop.standing_onStats (latest + 1) stats
  have hheard : o.loop.group.seen stats.receiverId = some (some (latest + 1)) := by
    rw [hseen, if_pos rfl, hbefore]
    rfl
  refine ⟨hheard, fun id seen hsome => ?_⟩
  by_cases hid : stats.receiverId = id
  · subst hid
    rw [hheard, Option.some.injEq] at hsome
    refine ⟨latest + 1, hsome.symm, .inr ⟨rfl, ?_⟩⟩
    obtain ⟨complete, hstood⟩ := Group.exists_standing_of_seen hbefore
    rw [hstanding, if_pos rfl, hstood, totalSlices_of_draining h hdraining]
    simpa using hneeded
  · rw [hseen, if_neg hid] at hsome
    obtain ⟨t, rfl⟩ := seen_of_reachable h hsome
    exact ⟨t, rfl, .inl (hlatest id t hsome)⟩

/-- The last report of one receiver is enough for the loop to end well: whoever else is left is then
either done too or silent. -/
theorem canReach_ok (h : Labelled.Reachable (system rs config reader) w)
    (hreadable : SlicerTask.Readable reader config.geometry) (hd : w.Drained)
    (hmember : w.loop.group.contains r)
    (hfinished : w.Finished (World.slices config reader) r) (now : ℕ) :
    Labelled.CanReachAt (system rs config reader) Action.readings (fun w' _ =>
      w'.loop.verdict = some (.ok ()) ∧ w'.peers = w.peers ∧ w'.Flushed) w now := by
  obtain ⟨stats, hstats, rfl, hneeded⟩ := hfinished.reported
  obtain ⟨bound, hbound⟩ :=
    Table.exists_bound w.loop.group.participants fun p => p.lastSeen.getD 0
  let latest := max now bound
  have hlatest (id t : ℕ) (hseen : w.loop.group.seen id = some (some t)) : t ≤ latest := by
    obtain ⟨p, hp, hlast⟩ := Option.map_eq_some_iff.mp hseen
    have hle := hbound id p hp
    rw [hlast, Option.getD_some] at hle
    exact hle.trans (Nat.le_max_right ..)
  let o := w.loop.control (latest + 1) (.stats stats)
  have hnext : (system rs config reader).next (.control (latest + 1) (.stats stats)) w =
      some (w.afterLoop o) := if_pos ⟨by rw [hd.running]; rfl, hstats⟩
  rw [Group.contains_eq_seen] at hmember
  obtain ⟨before, hbefore⟩ := Option.isSome_iff_exists.mp hmember
  obtain ⟨hheard, heither⟩ := seen_of_report h hd.draining hneeded hbefore hlatest
  have hloop : o.loop.verdict = none ∧ o.loop.draining ∧ ∀ k slots,
      .resend k slots ∉ o.feedback := by
    simp only [o, SendLoop.control, SendLoop.onStats]
    split_ifs
    · exact ⟨hd.running, hd.draining, by simp⟩
    · exact ⟨hd.running, hd.draining, by simp⟩
  obtain ⟨hrun, hdraining, hfeedback⟩ := hloop
  have hflushed : w.Flushed := ⟨hd.quiet.outbound, hd.quiet.todo,
    ended_of_running hreadable h hd.running, by simp [hd.quiet.feedback]⟩
  refine .once (Nat.le_succ_of_le (Nat.le_max_left ..)) hnext rfl ?_
  rcases LoopOutcome.settle_verdict (o := o) hrun
    (Group.len_ne_zero_of_seen hheard) with ⟨hopen, -⟩ | hok
  swap
  · exact .here ⟨hok, rfl, hflushed.afterLoop hfeedback⟩
  have hsettle : (w.afterLoop o).loop.group = o.loop.group ∧
      (w.afterLoop o).loop.draining = o.loop.draining := by
    obtain ⟨verdict, heq⟩ := o.settle_eq
    unfold World.afterLoop
    rw [heq]
    exact ⟨rfl, rfl⟩
  obtain ⟨hgroup, hsame⟩ := hsettle
  have hrun' : (w.afterLoop o).loop.verdict = none := hopen
  exact canReach_ok_of_tick hrun' (hsame ▸ hdraining) (hflushed.afterLoop hfeedback)
    (by rw [hgroup]; exact heither) (by rw [hgroup]; exact hheard)

/-- After a loop that ended well the slicer can return, and those who have ended well stay so. -/
theorem canReach_returned (h : Labelled.Reachable (system rs config reader) w)
    (hok : w.loop.verdict = some (.ok ())) (hflushed : w.Flushed) (now : ℕ) :
    Labelled.CanReachAt (system rs config reader) Action.readings (fun w' _ =>
      w'.returned = some (.ok ()) ∧
      ∀ r summary, (w.peers r).ended = some (.returned (.ok summary)) →
        (w'.peers r).ended = some (.returned (.ok summary))) w now := by
  have hover : w.loop.verdict.isSome := by rw [hok]; rfl
  refine ((canReach_of_fits h hover hflushed.ended hflushed.fits now).keeping
    (I := fun w' => w'.loop = w.loop ∧ ∀ r summary,
      (w.peers r).ended = some (.returned (.ok summary)) →
        (w'.peers r).ended = some (.returned (.ok summary))) ⟨rfl, fun _ _ => id⟩ ?_).mono ?_
  · rintro a w₁ w₂ ⟨hloop, hkept⟩ hnext
    have hstep := step_of_next hnext
    refine ⟨(loop_of_step (by rw [hloop]; exact hover) hstep).trans hloop, fun r summary hr => ?_⟩
    cases hstep with
    | turn r' now branch sink hrun =>
      have hne : r ≠ r' := by
        rintro rfl
        rw [hkept r summary hr] at hrun
        cases hrun
      rw [peers_afterTurn_of_ne _ hne]
      exact hkept r summary hr
    | _ => exact hkept r summary hr
  · rintro w' time ⟨hreturned, hloop, hkept⟩
    refine ⟨?_, hkept⟩
    rw [returned, hreturned, hloop, hok]
    rfl

/-- In any state of any run in which the loop goes on and somebody in the group runs as it should, and
at any time at which nobody is overdue, the run has a continuation from that time on, with no reading
of the clock below one before it, in which the sender returns well, and all who ran as they should
have ended well with the whole input. -/
theorem success_stays_possible (hfits : FitsWindow reader config.geometry)
    (htransfer : config.transferId < 2 ^ 64) (hblocks : config.geometry.blocksPerSlice ≤ 840)
    (h : Labelled.Reachable (system rs config reader) w) (hrun : w.loop.verdict = none)
    (hable : w.Able reader r) {now : ℕ} (hstale : w.loop.group.stale now silenceTimeout = []) :
    Labelled.CanReachAt (system rs config reader) Action.readings (fun w' _ =>
      w'.returned = some (.ok ()) ∧
      ∀ r, w.Able reader r → ∃ summary,
        (w'.peers r).ended = some (.returned (.ok summary)) ∧
          (w'.peers r).sunk.flatten = reader.bytes) w now := by
  classical
  let members := w.loop.group.participants.keys.filter fun r => w.Able reader r
  have hmem (r : ℕ) (hr : w.Able reader r) : r ∈ members :=
    List.mem_filter.mpr ⟨AList.mem_keys.mp (Group.contains_iff.mp hr.member), by simpa using hr⟩
  refine ((canReach_told hfits h hrun hstale).reachable h).trans ?_
  rintro w₁ time₁ ⟨h₁, honward, hd₁⟩
  have hall : ∀ r ∈ members, w₁.Able reader r ∨ w₁.Finished (World.slices config reader) r :=
    fun r hr => .inl (honward.able (by simpa using (List.mem_filter.mp hr).2))
  refine ((canReach_all_finished htransfer hblocks h₁ hfits hd₁ hall time₁).reachable h₁).trans ?_
  rintro w₂ time₂ ⟨h₂, hd₂, hmembers, hfinished⟩
  have hmember : w₂.loop.group.contains r := by
    rw [hmembers, honward.members]
    exact hable.member
  refine ((canReach_ok h₂ hfits.readable hd₂ hmember
    (hfinished r (.inl (hmem r hable))) time₂).reachable h₂).trans ?_
  rintro w₃ time₃ ⟨h₃, hok, hpeers, hflushed⟩
  refine ((canReach_returned h₃ hok hflushed time₃).reachable h₃).mono ?_
  rintro w₄ time₄ ⟨h₄, hreturned, hkept⟩
  refine ⟨hreturned, fun r hr => ?_⟩
  obtain ⟨summary, hended⟩ := (hfinished r (.inl (hmem r hr))).ok
  have hended' := hkept r summary (by rw [hpeers]; exact hended)
  exact ⟨summary, hended', (success_delivers_input h₄ hended').1⟩

/-- The only shard is out, and lost on its way to the only receiver, who was last heard of a
timeout ago. -/
theorem success_stays_possible_after_loss : ∃ w,
    Labelled.Reachable (system .interpolated (.tiny 2) (.single [1])) w ∧ w.air 0 = [] ∧
      w.loop.seq = 1 ∧
      Labelled.CanReachAt (system .interpolated (.tiny 2) (.single [1])) Action.readings
        (fun w' _ => w'.returned = some (.ok ()) ∧
          (w'.peers 0).sunk.flatten = (Reader.single [1]).bytes) w silenceTimeout := by
  obtain ⟨w₀, hstart, w, hexec, hair, hseq, hrun, hmember, hended, hsunk, hpending, hstale⟩ : ∃ w₀,
      start (.tiny 2) (.single [1]) [.join 7 0] 0 = .ok w₀ ∧ ∃ w,
      Labelled.exec (system .interpolated (.tiny 2) (.single [1]))
        [.read, .queue, .egress 0, .loseDown 0 paddedShard] w₀ = some w ∧
      w.air 0 = [] ∧ w.loop.seq = 1 ∧ w.loop.verdict = none ∧ w.loop.group.contains 0 = true ∧
      (w.peers 0).ended = none ∧ (w.peers 0).sunk = [] ∧ (w.peers 0).session.pending = [] ∧
      w.loop.group.stale silenceTimeout silenceTimeout = [] := by
    unfold start
    rw [Reader.items_byte]
    exact ⟨_, rfl, _, rfl, rfl, rfl, rfl, rfl, rfl, rfl, rfl, rfl⟩
  have h : Labelled.Reachable (system .interpolated (.tiny 2) (.single [1])) w :=
    .exec (.start ⟨_, _, hstart⟩) hexec
  have hfits : FitsWindow (.single [1]) (Config.tiny 2).geometry := by
    refine ⟨rfl, ?_⟩
    rw [Reader.length_blocks rfl]
    decide
  have hable : w.Able (.single [1]) 0 := ⟨by decide, hmember, hended, by simp [hsunk, hpending]⟩
  refine ⟨w, h, hair, hseq,
    (success_stays_possible hfits (by decide) (by decide) h hrun hable hstale).mono ?_⟩
  rintro w' time ⟨hreturned, hall⟩
  obtain ⟨summary, -, hdelivered⟩ := hall 0 hable
  exact ⟨hreturned, hdelivered⟩

end World
end Scuttlecast
