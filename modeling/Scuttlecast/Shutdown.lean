import Scuttlecast.FlowControl
import Scuttlecast.EndToEnd
import Scuttlecast.Sender.Backlog
import Scuttlecast.Library.Clocked

/-! How the sender shuts down. Once the loop is over nobody reads the outbound channel, though it
stays open until the slicer has returned; so the slicer gets there exactly where what it has yet to
queue fits in the room that is left. -/
namespace Scuttlecast
namespace World

variable {rs : ReedSolomon} {config : Config} {reader : Reader} {L : Ledger} {w w' : World}

/-- The channels between the loop and the slicer: one is bounded, the other keeps the order in
which floors and requests were decided, and closes with a `Done`. -/
structure Orderly (w : World) : Prop where
  room : w.outbound.length ≤ outboundCapacity
  ordered : Slicer.Ordered w.feedback
  running : w.loop.verdict = none → .done ∉ w.feedback
  closed : w.loop.verdict.isSome → w.task.ended = none →
    ∃ front, w.feedback = front ++ [.done] ∧ .done ∉ front

/-- Of what the loop adds to the queue, only a request is bound by the floors before it. -/
theorem ordered_append {feedback : List Feedback} (h : Slicer.Ordered feedback)
    {added : List Feedback} (hone : added.length ≤ 1)
    (hadded : ∀ k blocks, .resend k blocks ∈ added → ∀ v, .needed v ∈ feedback → v ≤ k) :
    Slicer.Ordered (feedback ++ added) := by
  refine List.pairwise_append.mpr ⟨h, ?_, fun a ha b hb v k blocks hv hk => ?_⟩
  · match added, hone with
    | [], _ => exact .nil
    | [message], _ => exact List.pairwise_singleton ..
  · exact hadded k blocks (hk ▸ hb) v (hv ▸ ha)

theorem Orderly.afterLoop (h : w.Orderly) (hrun : w.loop.verdict.isNone) {o : LoopOutcome}
    (hone : o.feedback.length ≤ 1) (hdone : .done ∉ o.feedback)
    (hadded : ∀ k blocks, .resend k blocks ∈ o.feedback → ∀ v, .needed v ∈ w.feedback → v ≤ k) :
    (w.afterLoop o).Orderly := by
  obtain ⟨verdict, heq⟩ := o.settle_eq
  have hnone := h.running (by simpa using hrun)
  have hordered := ordered_append h.ordered hone hadded
  unfold World.afterLoop
  rw [heq]
  refine ⟨h.room, ?_, fun hverdict => ?_, fun hverdict _ => ?_⟩
  · simp only [← List.append_assoc]
    refine ordered_append hordered ?_ fun k blocks hm => ?_
    · split_ifs <;> simp
    · split_ifs at hm <;> simp at hm
  · simp only at hverdict
    simp [hverdict, hnone, hdone]
  · simp only at hverdict
    simp only [hverdict, if_true]
    exact ⟨w.feedback ++ o.feedback, by simp, by simp [hnone, hdone]⟩

theorem Orderly.control (h : w.Orderly) (hrun : w.loop.verdict.isNone)
    (hfloor : ∀ v, .needed v ∈ w.feedback → v ≤ w.loop.group.neededFrom) (now : ℕ) (m : Message) :
    (w.afterLoop (w.loop.control now m)).Orderly := by
  cases m with
  | stats stats =>
    simp only [SendLoop.control, SendLoop.onStats]
    split_ifs
    · rcases hneeded : ((w.loop.group.markSeen stats.receiverId now).onStats stats).1 with _ | v
      · exact h.afterLoop hrun (by simp) (by simp) (by simp)
      · exact h.afterLoop hrun (by simp) (by simp) (by simp)
    · exact h.afterLoop hrun (by simp) (by simp) (by simp)
  | nak nak =>
    refine h.afterLoop hrun ?_ ?_ fun k blocks hm v hv => ?_
    · simp only [SendLoop.control, SendLoop.onNak]
      split_ifs <;> simp
    · simp only [SendLoop.control, SendLoop.onNak]
      split_ifs <;> simp
    · simp only [SendLoop.control, SendLoop.onNak] at hm
      split_ifs at hm with hblocks
      · simp at hm
      · obtain ⟨rfl, -⟩ := Feedback.resend.inj (List.mem_singleton.mp hm)
        unfold Group.onNak at hblocks
        split_ifs at hblocks with hskip
        · exact absurd rfl hblocks
        · simp only [Group.nobodyNeeds, not_or, decide_eq_true_eq, Nat.not_lt] at hskip
          exact (hfloor v hv).trans hskip.2
  | _ =>
    exact h.afterLoop hrun (by simp [SendLoop.control]) (by simp [SendLoop.control])
      (by simp [SendLoop.control])

theorem Orderly.step (h : w.Orderly)
    (hfloor : ∀ v, .needed v ∈ w.feedback → v ≤ w.loop.group.neededFrom) {a : Action}
    (hstep : Step rs a w w') : w'.Orderly := by
  cases hstep with
  | @read _ task hread =>
    refine ⟨h.room, h.ordered, h.running, fun hover _ => ?_⟩
    unfold SlicerTask.read at hread
    split_ifs at hread with hguard
    exact h.closed hover (by simpa using hguard.1.1)
  | @feedback _ message rest hselect hfeedback =>
    have hordered := h.ordered
    rw [hfeedback] at hordered
    have htail (message' : Feedback) (hm : message' ∈ rest) : message' ∈ w.feedback :=
      hfeedback ▸ List.mem_cons_of_mem _ hm
    refine ⟨h.room, hordered.of_cons, fun hrun hm => h.running hrun (htail _ hm),
      fun hover hended => ?_⟩
    obtain ⟨front, hfront, hnot⟩ := h.closed hover (by simpa using hselect.1)
    rw [hfeedback] at hfront
    rcases front with _ | ⟨first, front⟩
    · obtain ⟨rfl, -⟩ := List.cons.inj hfront
      simp [SlicerTask.recv] at hended
    · obtain ⟨-, hrest⟩ := List.cons.inj hfront
      exact ⟨front, hrest, fun hm => hnot (List.mem_cons_of_mem _ hm)⟩
  | queue hrun htodo hroom => exact ⟨by simpa using hroom, h.ordered, h.running, h.closed⟩
  | @egress _ message rest now hrun hout =>
    have hroom := h.room
    rw [hout, List.length_cons] at hroom
    have hrest : Orderly { w with outbound := rest } :=
      ⟨Nat.le_of_succ_le hroom, h.ordered, h.running, h.closed⟩
    cases message <;> exact hrest.afterLoop hrun (Nat.zero_le _) (by simp [SendLoop.egress])
      (by simp [SendLoop.egress])
  | egressClosed hrun hempty hended =>
    exact h.afterLoop hrun (Nat.zero_le _) (by simp [SendLoop.egressClosed])
      (by simp [SendLoop.egressClosed])
  | tick now idle wanted hrun =>
    refine h.afterLoop hrun ?_ ?_ fun k blocks hm => ?_
    · simp only [SendLoop.tick]
      split_ifs <;> simp
    · simp only [SendLoop.tick]
      split_ifs <;> simp
    · simp only [SendLoop.tick] at hm
      split_ifs at hm <;> simp at hm
  | deadline now hrun hdue =>
    exact h.afterLoop hrun (Nat.zero_le _) (by simp [SendLoop.deadline])
      (by simp [SendLoop.deadline])
  | control now message hrun hmem => exact h.control hrun hfloor now message
  | turn r now branch sink hrun henabled hdelivers => exact ⟨h.room, h.ordered, h.running, h.closed⟩
  | loseDown _ r arrival => exact ⟨h.room, h.ordered, h.running, h.closed⟩
  | loseUp _ message => exact ⟨h.room, h.ordered, h.running, h.closed⟩

theorem orderly_of_reachable (h : Labelled.Reachable (system rs config reader) w) : w.Orderly := by
  refine Labelled.Reach.invariant_on (J := World.Floors) (fun _ h => floors_of_reachable h) ?_ ?_ h
  · rintro w ⟨gathered, now, hstart⟩
    obtain ⟨_, _, _, _, _, rfl⟩ := start_eq_ok hstart
    exact ⟨Nat.zero_le _, .nil, by simp, fun hover => by simp [SendLoop.new] at hover⟩
  · rintro a w w' - hfloors - h hnext
    exact h.step hfloors.feedback (step_of_next hnext)

/-- What the slicer has yet to queue, if it reads nothing more, has room in the outbound channel. -/
def Fits (w : World) : Prop :=
  w.outbound.length + w.task.backlog w.feedback ≤ outboundCapacity

instance (w : World) : Decidable w.Fits := by
  unfold Fits
  infer_instance

/-- The slicer has taken the `Done`. -/
abbrev Returned (w : World) : Prop := w.task.ended = some (.returned (.ok ()))

/-- After the loop, whatever a running slicer does leaves it no better off. -/
theorem fits_of_step (h : w.Orderly) (hs : w.Sound rs config reader L)
    (hover : w.loop.verdict.isSome) {a : Action} (hstep : Step rs a w w')
    (hrun : w'.task.ended = none) : w.task.ended = none ∧ (w'.Fits → w.Fits) := by
  have hclosed : ¬ w.loop.verdict.isNone := by simpa [Option.isSome_iff_ne_none] using hover
  cases hstep with
  | read hread =>
    obtain ⟨-, -, hended, -⟩ := hs.task.read_cases hread
    have hbacklog := (hs.task.backlog_read hread w.feedback).2 hrun
    refine ⟨hended, fun hfits => ?_⟩
    simp only [Fits] at hfits ⊢
    omega
  | @feedback _ message rest hselect hfeedback =>
    have hdone : message ≠ .done := by
      rintro rfl
      simp [SlicerTask.recv] at hrun
    have hbacklog := (SlicerTask.backlog_recv hselect.2 (hfeedback ▸ h.ordered) hdone).1
    refine ⟨by simpa using hselect.1, fun hfits => ?_⟩
    simpa only [Fits, hfeedback, hbacklog] using hfits
  | queue _ htodo hroom =>
    refine ⟨hrun, fun hfits => ?_⟩
    simp only [Fits, SlicerTask.backlog, List.length_append, List.length_singleton] at hfits ⊢
    rw [htodo, List.length_cons]
    omega
  | egress now hloop hout => exact absurd hloop hclosed
  | egressClosed hloop hempty hended => exact absurd hloop hclosed
  | tick now idle wanted hloop => exact absurd hloop hclosed
  | deadline now hloop hdue => exact absurd hloop hclosed
  | control now message hloop hmem => exact absurd hloop hclosed
  | turn r now branch sink hloop henabled hdelivers => exact ⟨hrun, id⟩
  | loseDown _ r arrival => exact ⟨hrun, id⟩
  | loseUp _ message => exact ⟨hrun, id⟩

/-- Once the loop is over it stays so, and nothing but the slicer touches the channels. -/
theorem loop_of_step (hover : w.loop.verdict.isSome) {a : Action} (hstep : Step rs a w w') :
    w'.loop = w.loop := by
  have hclosed : ¬ w.loop.verdict.isNone := by simpa [Option.isSome_iff_ne_none] using hover
  cases hstep with
  | egress now hloop hout => exact absurd hloop hclosed
  | egressClosed hloop hempty hended => exact absurd hloop hclosed
  | tick now idle wanted hloop => exact absurd hloop hclosed
  | deadline now hloop hdue => exact absurd hloop hclosed
  | control now message hloop hmem => exact absurd hloop hclosed
  | _ => rfl

/-- The slicer gets to its `Done` only by a step that takes it, with nothing left to send. -/
theorem ended_of_step (h : w.Orderly) (hs : w.Sound rs config reader L)
    (hover : w.loop.verdict.isSome) {a : Action} (hstep : Step rs a w w')
    (hreturned : w'.Returned) : w.Returned ∨ w.task.ended = none ∧ w.Fits := by
  cases hstep with
  | read hread => exact absurd hreturned (hs.task.backlog_read hread []).1
  | @feedback _ message rest hselect hfeedback =>
    have hended : w.task.ended = none := by simpa using hselect.1
    refine .inr ⟨hended, ?_⟩
    have hdone : message = .done := by
      cases message <;> simp_all [Returned, SlicerTask.recv]
    obtain ⟨front, hfront, hnot⟩ := h.closed hover hended
    rw [hfeedback, hdone] at hfront
    rcases front with _ | ⟨first, front⟩
    · obtain ⟨-, rfl⟩ := List.cons.inj hfront
      simpa [Fits, SlicerTask.backlog, hselect.2, hfeedback, hdone, Slicer.answer] using h.room
    · obtain ⟨rfl, -⟩ := List.cons.inj hfront
      simp at hnot
  | _ => exact .inl hreturned

/-- So from a state with too much to queue it never gets there. -/
theorem fits_of_canReach (h : Labelled.Reachable (system rs config reader) w)
    (hover : w.loop.verdict.isSome) (hrun : w.task.ended = none)
    (hreach : Labelled.CanReach (system rs config reader) Returned w) : w.Fits := by
  by_contra hfits
  refine Labelled.not_canReach_of_trap (I := fun w =>
    Labelled.Reachable (system rs config reader) w ∧ w.loop.verdict.isSome ∧ ¬ w.Returned ∧
      (w.task.ended = none → ¬ w.Fits)) (fun _ h => h.2.2.1) ?_
    ⟨h, hover, by simp [Returned, hrun], fun _ => hfits⟩ hreach
  rintro a w w' ⟨h, hover, hnot, hfits⟩ hnext
  obtain ⟨L, hs⟩ := sound_of_reachable h
  have hstep := step_of_next hnext
  refine ⟨h.step trivial hnext, loop_of_step hover hstep ▸ hover, fun hreturned => ?_,
    fun hrun hfit => ?_⟩
  · rcases ended_of_step (orderly_of_reachable h) hs hover hstep hreturned with hbefore | ⟨hrun, hfit⟩
    · exact hnot hbefore
    · exact hfits hrun hfit
  · obtain ⟨hended, hback⟩ := fits_of_step (orderly_of_reachable h) hs hover hstep hrun
    exact hfits hended (hback hfit)

/-- There is room for one more message. -/
theorem next_queue {message : Outbound} {rest : List Outbound} (hrun : w.task.ended = none)
    (htodo : w.task.todo = message :: rest) (hroom : w.outbound.length < outboundCapacity) :
    (system rs config reader).next .queue w = some { w with
      task := { w.task with todo := rest }
      outbound := w.outbound ++ [message]
      emitted := w.emitted ++ [message] } := by
  simp only [system, next, stepQueue, htodo, hrun, Option.isNone_none]
  exact if_pos ⟨trivial, hroom⟩

/-- What is read off the clock in a step. -/
def Action.readings : Action → List ℕ
  | .read | .feedback | .queue | .egressClosed | .loseDown _ _ | .loseUp _ => []
  | .egress now | .tick now _ _ | .deadline now | .control now _ => [now]
  | .turn _ now (.packets arrivals) _ => now :: arrivals.map Prod.fst
  | .turn _ now _ _ => [now]

/-- What waits to be queued is queued, as far as there is room. -/
theorem canReach_of_queued {goal : World → ℕ → Prop} {now : ℕ}
    (h : Labelled.Reachable (system rs config reader) w) (hrun : w.task.ended = none)
    (hroom : w.outbound.length + w.task.todo.length ≤ outboundCapacity)
    (hgoal : ∀ w', Labelled.Reachable (system rs config reader) w' → w'.loop = w.loop →
      w'.feedback = w.feedback → w'.task = { w.task with todo := [] } →
      w'.outbound.length = w.outbound.length + w.task.todo.length →
      Labelled.CanReachAt (system rs config reader) Action.readings goal w' now) :
    Labelled.CanReachAt (system rs config reader) Action.readings goal w now := by
  obtain ⟨todo, htodo⟩ : ∃ todo, w.task.todo = todo := ⟨_, rfl⟩
  induction todo generalizing w with
  | nil => exact hgoal w h rfl rfl (by rw [← htodo]) (by simp [htodo])
  | cons message rest ih =>
    rw [htodo, List.length_cons] at hroom
    have hnext : (system rs config reader).next .queue w = some _ :=
      next_queue hrun htodo (by omega)
    refine .untimed hnext rfl (ih (h.step trivial hnext) hrun ?_ ?_ rfl)
    · simp only [List.length_append, List.length_singleton]
      omega
    · intro w' h' hloop hfeedback htask hlength
      apply hgoal w' h' hloop hfeedback htask
      simp only [List.length_append, List.length_singleton] at hlength
      rw [hlength, htodo, List.length_cons]
      omega

/-- With room for it all, the slicer gets to its `Done` by reading nothing more, at any time. -/
theorem canReach_of_fits (h : Labelled.Reachable (system rs config reader) w)
    (hover : w.loop.verdict.isSome) (hrun : w.task.ended = none) (hfits : w.Fits) (now : ℕ) :
    Labelled.CanReachAt (system rs config reader) Action.readings (fun w' _ => w'.Returned) w
      now := by
  obtain ⟨n, hn⟩ : ∃ n, w.feedback.length = n := ⟨_, rfl⟩
  induction n generalizing w with
  | zero =>
    obtain ⟨front, hfront, -⟩ := (orderly_of_reachable h).closed hover hrun
    simp [hfront] at hn
  | succ n ih =>
    have hroom : w.outbound.length + w.task.todo.length ≤ outboundCapacity := by
      simp only [Fits, SlicerTask.backlog] at hfits
      omega
    refine canReach_of_queued h hrun hroom fun w₁ h₁ hloop hfeedback htask hlength => ?_
    have horderly := orderly_of_reachable h₁
    rcases hqueue : w₁.feedback with _ | ⟨message, rest⟩
    · rw [← hfeedback, hqueue] at hn
      simp at hn
    have hselect : w₁.task.AtSelect := by rw [htask]; exact ⟨by simp [hrun], rfl⟩
    have hnext : (system rs config reader).next .feedback w₁ =
        some { w₁ with task := w₁.task.recv message, feedback := rest } := by
      simp only [system, next, stepFeedback, hqueue]
      exact if_pos hselect
    by_cases hdone : message = .done
    · exact .untimed hnext rfl (.here (by rw [hdone]; rfl))
    obtain ⟨hbacklog, hended⟩ :=
      SlicerTask.backlog_recv hselect.2 (hqueue ▸ horderly.ordered) hdone
    refine .untimed hnext rfl (ih (h₁.step trivial hnext) (hloop ▸ hover) ?_ ?_ ?_)
    · rw [hended, htask]
      exact hrun
    · rw [Fits, hbacklog, ← hqueue, hfeedback, hlength, htask]
      simpa [Fits, SlicerTask.backlog, Nat.add_assoc] using hfits
    · rw [← hfeedback, hqueue] at hn
      simpa using hn

/-- An input that can be read to its end ends the slicer in no other way. -/
theorem ended_of_reachable (hreadable : SlicerTask.Readable reader config.geometry)
    (h : Labelled.Reachable (system rs config reader) w) :
    w.task.ended = none ∨ w.Returned := by
  refine Labelled.Reach.invariant_on (J := fun w => ∃ L, w.Sound rs config reader L)
    (I := fun w => w.task.ended = none ∨ w.Returned) (fun _ h => sound_of_reachable h) ?_ ?_ h
  · rintro w ⟨gathered, now, hstart⟩
    obtain ⟨_, _, _, _, _, rfl⟩ := start_eq_ok hstart
    exact .inl rfl
  · rintro a w w' - ⟨L, hs⟩ - hended hnext
    cases step_of_next hnext with
    | read hread => exact .inl (hs.task.ended_read (hs.geometry ▸ hreadable) hread)
    | @feedback _ message rest hselect hfeedback =>
      cases message with
      | done => exact .inr rfl
      | _ => exact hended
    | _ => exact hended

theorem canReach_ended_iff (hreadable : SlicerTask.Readable reader config.geometry)
    (h : Labelled.Reachable (system rs config reader) w) :
    Labelled.CanReach (system rs config reader) (fun w => w.task.ended.isSome) w ↔
      Labelled.CanReach (system rs config reader) Returned w := by
  constructor
  · rintro ⟨actions, w', hexec, hended⟩
    refine ⟨actions, w', hexec, ?_⟩
    refine (ended_of_reachable hreadable (h.exec hexec)).resolve_left fun hnone => ?_
    simp [hnone] at hended
  · rintro ⟨actions, w', hexec, hreturned⟩
    exact ⟨actions, w', hexec, by simp [show w'.task.ended = _ from hreturned]⟩

/-- From a state after the loop, the slicer can still get to its `Done` exactly where what it has
to queue fits; and where its input can be read to the end, there is no other way for it to end. -/
theorem slicer_can_return_iff (h : Labelled.Reachable (system rs config reader) w)
    (hover : w.loop.verdict.isSome) (hrun : w.task.ended = none) :
    (Labelled.CanReach (system rs config reader) Returned w ↔ w.Fits) ∧
      (SlicerTask.Readable reader config.geometry →
        (Labelled.CanReach (system rs config reader) (fun w => w.task.ended.isSome) w ↔
          w.Fits)) := by
  have hiff : Labelled.CanReach (system rs config reader) Returned w ↔ w.Fits :=
    ⟨fits_of_canReach h hover hrun, fun hfits =>
      (canReach_of_fits h hover hrun hfits 0).canReach.mono fun _ ⟨_, hreturned⟩ => hreturned⟩
  exact ⟨hiff, fun hreadable => (canReach_ended_iff hreadable h).trans hiff⟩

theorem slicer_can_return_iff_short_block : ∃ w,
    Labelled.Reachable (system .interpolated (.tiny 1) (.single [1])) w ∧
      w.loop.verdict = some (.error .noParticipants) ∧
      Labelled.CanReach (system .interpolated (.tiny 1) (.single [1])) Returned w := by
  obtain ⟨w₀, hstart, w, hrun, hverdict, hended, hbacklog⟩ : ∃ w₀,
      start (.tiny 1) (.single [1]) [.join 7 0] 0 = .ok w₀ ∧ ∃ w,
      Labelled.exec (system .interpolated (.tiny 1) (.single [1]))
        [.read, .tick (10 ^ 10 + 1) false 0] w₀ = some w ∧
      w.loop.verdict = some (.error .noParticipants) ∧ w.task.ended = none ∧
      w.outbound.length + w.task.backlog w.feedback = 1 := by
    unfold start
    rw [Reader.items_byte]
    exact ⟨_, rfl, _, rfl, rfl, rfl, rfl⟩
  have h : Labelled.Reachable (system .interpolated (.tiny 1) (.single [1])) w :=
    .exec (.start ⟨_, _, hstart⟩) hrun
  have hfits : w.Fits := by
    rw [Fits, hbacklog]
    decide
  exact ⟨w, h, hverdict, (slicer_can_return_iff h (by rw [hverdict]; rfl) hended).1.mpr hfits⟩

end World
end Scuttlecast
