import Scuttlecast.Sender.Attendance
import Scuttlecast.FlowControl
import Scuttlecast.EndToEnd

/-! What the loop's verdict says of the receivers. -/
namespace Scuttlecast
namespace SendLoop

variable {config : Config} {gathered : List Message} {s : SendLoop} {before after : List Event}

/-- Without repetitions, a part has the length of the whole only if it is all of it. -/
theorem length_eq_iff_subset {xs ys : List ℕ} (hxs : xs.Nodup) (hys : ys.Nodup) (hsub : xs ⊆ ys) :
    xs.length = ys.length ↔ ys ⊆ xs := by
  have hpart : List.Subperm xs ys := hxs.subperm hsub
  constructor
  · intro hlen id hid
    exact (hpart.perm_of_length_le hlen.ge).mem_iff.mpr hid
  · intro hall
    exact hpart.length_le.antisymm (hys.subperm hall).length_le

section Count

variable {s₀ : SendLoop} {now bytes blocks : ℕ}

/-- After the end of the input the flag is up for those still there who have reported it. -/
theorem standing_eq_true_iff (h : s.Attends config gathered
      (before ++ .egress now (.eof bytes blocks) :: after))
    (hafter : ∀ e ∈ after, e.isEnd = false) (horder : after.Pairwise Event.Precedes) (id : ℕ) :
    s.group.standing id = some true ↔ id ∈ s.group.participants ∧
      reportedEnd (Chunks.divCeil blocks config.geometry.blocksPerSlice % 2 ^ 32) after id := by
  obtain ⟨htotal, hreport⟩ : total config.geometry
      (before ++ .egress now (.eof bytes blocks) :: after) =
        some (Chunks.divCeil blocks config.geometry.blocksPerSlice % 2 ^ 32) ∧
      lastReport id (before ++ .egress now (.eof bytes blocks) :: after) = lastReport id after :=
    heard_since_end hafter
  have hsaid := h.flag id
  rw [htotal, hreport, Option.any_some, lastReport_eq horder hafter] at hsaid
  rw [← Group.contains_iff, Group.contains_eq]
  rcases hstanding : s.group.standing id with _ | b
  · simp
  · rw [hsaid b hstanding]
    simp

theorem mem_of_mem_group (h₀ : (loops config gathered).init s₀) {events : List Event}
    (hexec : Labelled.exec (loops config gathered) events s₀ = some s) {id : ℕ}
    (hid : id ∈ s.group.participants) : id ∈ (gather gathered).participants := by
  by_contra habsent
  have hnone : s.group.standing id = none := by
    rw [standing_eq_none_iff hexec, standing_start h₀]
    exact .inl (Group.standing_eq_none.mpr habsent)
  exact Group.standing_eq_none.mp hnone hid

/-- The count of the verdict misses those who have left: it is that of the receivers who reported
the end exactly where all of these are still in the group. -/
theorem complete_count_iff {complete participants : ℕ} (h₀ : (loops config gathered).init s₀)
    (hexec : Labelled.exec (loops config gathered)
      (before ++ .egress now (.eof bytes blocks) :: after) s₀ = some s)
    (hafter : ∀ e ∈ after, e.isEnd = false) (horder : after.Pairwise Event.Precedes)
    (hverdict : s.verdict = some (.error (.transferIncomplete complete participants))) :
    let slices := Chunks.divCeil blocks config.geometry.blocksPerSlice % 2 ^ 32
    complete = ((gather gathered).participants.keys.filter (reportedEnd slices after)).length ↔
      ∀ id ∈ (gather gathered).participants, reportedEnd slices after id → s.group.contains id := by
  intro slices
  obtain ⟨h, hconcluded⟩ := attends_of_exec h₀ hexec
  rw [Concluded, hverdict] at hconcluded
  obtain ⟨-, -, hcount, -⟩ := hconcluded
  have hflag (id : ℕ) : id ∈ s.group.participants.keys.filter (fun id =>
        s.group.standing id = some true) ↔
      id ∈ s.group.participants ∧ reportedEnd slices after id := by
    rw [List.mem_filter, decide_eq_true_iff, standing_eq_true_iff h hafter horder, AList.mem_keys,
      and_self_left]
  have hreported (id : ℕ) : id ∈ (gather gathered).participants.keys.filter
        (reportedEnd slices after) ↔
      id ∈ (gather gathered).participants ∧ reportedEnd slices after id := List.mem_filter
  rw [hcount, Group.completeCount_eq, length_eq_iff_subset
    (s.group.participants.keys_nodup.filter _) ((gather gathered).participants.keys_nodup.filter _)]
  · simp only [List.subset_def, hflag, hreported, Group.contains_iff]
    constructor
    · intro hall id hid hsaid
      exact (hall ⟨hid, hsaid⟩).1
    · intro hall id hid
      exact ⟨hall id hid.1 hid.2, hid.2⟩
  · intro id hid
    rw [hflag] at hid
    exact (hreported id).mpr ⟨mem_of_mem_group h₀ hexec hid.1, hid.2⟩

/-- One of two receivers reaches the end and leaves; the other is still at it at the deadline. -/
theorem finished_receiver_is_not_counted : ∃ s, ∃ complete participants : ℕ,
    Labelled.exec (loops (.tiny 2) [.join 7 0, .join 7 1])
      [.egress 0 (.eof 1 1), .control 0 (.stats ⟨7, 0, 1, 1, 1, 0⟩), .control 0 (.leave 7 0),
        .deadline 10] (.new (.tiny 2) (gather [.join 7 0, .join 7 1]) 0) = some s ∧
      s.verdict = some (.error (.transferIncomplete complete participants)) ∧
      complete ≠ ((gather [.join 7 0, .join 7 1]).participants.keys.filter (reportedEnd 1
        [.control 0 (.stats ⟨7, 0, 1, 1, 1, 0⟩), .control 0 (.leave 7 0), .deadline 10])).length :=
  ⟨_, 0, 2, rfl, rfl, by decide⟩

theorem complete_count_iff_still_there : ∃ s,
    Labelled.exec (loops (.tiny 2) [.join 7 0, .join 7 1])
      ([] ++ .egress 0 (.eof 1 1) :: [.control 0 (.stats ⟨7, 0, 1, 1, 1, 0⟩), .deadline 10])
      (.new (.tiny 2) (gather [.join 7 0, .join 7 1]) 0) = some s ∧
      s.verdict = some (.error (.transferIncomplete 1 2)) ∧
      1 = ((gather [.join 7 0, .join 7 1]).participants.keys.filter (reportedEnd 1
        [.control 0 (.stats ⟨7, 0, 1, 1, 1, 0⟩), .deadline 10])).length := by
  obtain ⟨s, hexec, hverdict, hcontains⟩ : ∃ s,
      Labelled.exec (loops (.tiny 2) [.join 7 0, .join 7 1])
        ([] ++ .egress 0 (.eof 1 1) :: [.control 0 (.stats ⟨7, 0, 1, 1, 1, 0⟩), .deadline 10])
        (.new (.tiny 2) (gather [.join 7 0, .join 7 1]) 0) = some s ∧
      s.verdict = some (.error (.transferIncomplete 1 2)) ∧ s.group.contains 0 := by
    refine ⟨_, rfl, rfl, ?_⟩
    decide
  refine ⟨s, hexec, hverdict, ?_⟩
  refine (complete_count_iff ⟨by decide, 0, rfl⟩ hexec (by decide) (by decide) hverdict).mpr ?_
  intro id _ hreported
  obtain ⟨e, he, hsaid⟩ := List.any_eq_true.mp hreported
  have hid : 0 = id := by
    rcases List.mem_cons.mp he with rfl | he
    · exact (of_decide_eq_true hsaid).1
    · rw [List.mem_singleton.mp he] at hsaid
      cases hsaid
  exact hid ▸ hcontains

end Count

section Agreement

variable {events : List Event} {s₀ : SendLoop}

/-- The receiver has left in one of these events. -/
def hasLeft (events : List Event) (id : ℕ) : Bool :=
  events.any fun e =>
    match e with
    | .control _ (.leave _ r) => r = id
    | _ => false

theorem hasLeft_iff {id : ℕ} : hasLeft events id ↔ ∃ now t, .control now (.leave t id) ∈ events := by
  unfold hasLeft
  rw [List.any_eq_true]
  constructor
  · rintro ⟨e, he, hsaid⟩
    cases e with
    | control now message =>
      cases message with
      | leave t r => exact ⟨now, t, of_decide_eq_true hsaid ▸ he⟩
      | _ => cases hsaid
    | _ => cases hsaid
  · rintro ⟨now, t, he⟩
    exact ⟨_, he, decide_eq_true rfl⟩

/-- The input is out, not everybody has left, and each of the others said last, after the end of
the input, that it has everything. -/
def Agreed (config : Config) (gathered : List Message) (events : List Event) : Prop :=
  ∃ slices, total config.geometry events = some slices ∧
    (∃ id ∈ (gather gathered).participants, hasLeft events id = false) ∧
    ∀ id ∈ (gather gathered).participants, hasLeft events id = false →
      (lastReport id events).any (slices ≤ ·)

theorem Concluded.ok_iff (h : s.Concluded) : s.verdict = some (.ok ()) ↔
    s.group.len ≠ 0 ∧ s.draining ∧ s.group.allComplete := by
  unfold Concluded at h
  constructor
  · intro hok
    rw [hok] at h
    exact h
  · rintro ⟨hlen, hdone⟩
    split at h
    · exact absurd hdone h.2
    · assumption
    · exact absurd h hlen
    · exact absurd hdone h.2
    · exact absurd hdone h.1.2
    · exact h.elim

/-- Where nobody is taken out for silence, who is there are those who joined and have not left. -/
theorem standing_ne_none_iff (h₀ : (loops config gathered).init s₀)
    (hexec : Labelled.exec (loops config gathered) events s₀ = some s)
    (hstay : evicted events s₀ = []) {id : ℕ} : s.group.standing id ≠ none ↔
      id ∈ (gather gathered).participants ∧ hasLeft events id = false := by
  rw [Ne, standing_eq_none_iff hexec, standing_start h₀, Group.standing_eq_none, hstay,
    ← hasLeft_iff]
  simp

/-- The loop is over and well as soon as there is agreement, and not before. -/
theorem agreed_iff (h₀ : (loops config gathered).init s₀)
    (hexec : Labelled.exec (loops config gathered) events s₀ = some s)
    (hstay : evicted events s₀ = []) :
    Agreed config gathered events ↔ s.verdict = some (.ok ()) := by
  obtain ⟨h, hconcluded⟩ := attends_of_exec h₀ hexec
  have hthere (id : ℕ) : s.group.standing id ≠ none ↔ _ := standing_ne_none_iff h₀ hexec hstay
  rw [hconcluded.ok_iff, Ne, Group.len_eq_zero_iff, Group.allComplete_iff, Ne,
    Group.len_eq_zero_iff, h.draining, not_forall]
  constructor
  · rintro ⟨slices, htotal, ⟨id, hid⟩, hsaid⟩
    refine ⟨⟨id, (hthere id).mpr hid⟩, by rw [htotal]; rfl, ⟨id, (hthere id).mpr hid⟩, ?_⟩
    intro id' hfalse
    obtain ⟨hid', hstays⟩ := (hthere id').mp (by rw [hfalse]; simp)
    have hflag := h.flag id' false hfalse
    rw [htotal, Option.any_some, hsaid id' hid' hstays] at hflag
    cases hflag
  · rintro ⟨⟨id, hid⟩, htotal, -, hcomplete⟩
    obtain ⟨slices, htotal⟩ := Option.isSome_iff_exists.mp htotal
    refine ⟨slices, htotal, ⟨id, (hthere id).mp hid⟩, fun id' hid' hstays => ?_⟩
    obtain ⟨b, hb⟩ := Option.ne_none_iff_exists'.mp ((hthere id').mpr ⟨hid', hstays⟩)
    have htrue : b = true := by
      by_contra hfalse
      exact hcomplete id' (by simpa [hfalse] using hb)
    have hflag := h.flag id' b hb
    rw [htotal, Option.any_some, htrue] at hflag
    exact hflag.symm

theorem evicted_prefix (before after : List Event) (s : SendLoop) :
    evicted before s <+: evicted (before ++ after) s := by
  induction before generalizing s with
  | nil => exact List.nil_prefix
  | cons e rest ih => exact (List.prefix_append_right_inj _).mpr (ih _)

/-- A loop that is over takes up nothing more. -/
theorem exec_of_over (hover : s₀.verdict ≠ none)
    (hexec : Labelled.exec (loops config gathered) events s₀ = some s) : s = s₀ := by
  cases events with
  | nil =>
    rw [Labelled.exec_nil, Option.some.injEq] at hexec
    exact hexec.symm
  | cons e rest =>
    rw [Labelled.exec_cons, Option.bind_eq_some_iff] at hexec
    obtain ⟨t, hnext, -⟩ := hexec
    exact absurd (next_cases hnext).1 hover

/-- A run without evictions ends well exactly where it comes to an agreement. -/
theorem ok_iff_agreed (h₀ : (loops config gathered).init s₀)
    (hexec : Labelled.exec (loops config gathered) events s₀ = some s)
    (hstay : evicted events s₀ = []) : s.verdict = some (.ok ()) ↔
      ∃ before, before <+: events ∧ Agreed config gathered before := by
  constructor
  · intro hok
    exact ⟨events, List.prefix_rfl, (agreed_iff h₀ hexec hstay).mpr hok⟩
  · rintro ⟨before, ⟨after, rfl⟩, hagreed⟩
    rw [Labelled.exec_append, Option.bind_eq_some_iff] at hexec
    obtain ⟨t, hbefore, hafter⟩ := hexec
    have hnobody : evicted before s₀ = [] :=
      List.prefix_nil.mp (hstay ▸ evicted_prefix before after s₀)
    have hok := (agreed_iff h₀ hbefore hnobody).mp hagreed
    rw [exec_of_over (by rw [hok]; simp) hafter]
    exact hok

end Agreement

end SendLoop

namespace World

variable {rs : ReedSolomon} {config : Config} {reader : Reader} {L : Ledger} {w w' w₀ : World}
  {gathered : List Message} {actions : List Action} {now : ℕ}

/-- What the loop takes up in a step of the system, if it takes part. -/
def event (w : World) : Action → Option SendLoop.Event
  | .egress now => w.outbound.head?.map (.egress now)
  | .egressClosed => some .egressClosed
  | .tick now idle wanted => some (.tick now idle wanted)
  | .deadline now => some (.deadline now)
  | .control now message => some (.control now message)
  | _ => none

/-- All that the loop takes up in a run. -/
def heard (rs : ReedSolomon) : List Action → World → List SendLoop.Event
  | [], _ => []
  | a :: rest, w => (w.event a).toList ++ ((next rs a w).map (heard rs rest)).getD []

theorem heard_append {as bs : List Action} (hexec : Labelled.exec (system rs config reader) as w =
    some w') : heard rs (as ++ bs) w = heard rs as w ++ heard rs bs w' := by
  induction as generalizing w with
  | nil =>
    rw [Labelled.exec_nil, Option.some.injEq] at hexec
    rw [hexec]
    rfl
  | cons a as ih =>
    rw [Labelled.exec_cons, Option.bind_eq_some_iff] at hexec
    obtain ⟨t, ht, hexec⟩ := hexec
    have hnext : next rs a w = some t := ht
    rw [List.cons_append, heard, heard, hnext, Option.map_some, Option.map_some, Option.getD_some,
      Option.getD_some, ih hexec, List.append_assoc]

theorem heard_singleton (a : Action) (w : World) : heard rs [a] w = (w.event a).toList := by
  rw [heard]
  cases next rs a w <;> simp [heard]

/-- A step of the system is one of the loop, or leaves the loop alone. -/
theorem loop_step (config : Config) (gathered : List Message) {a : Action} (hn : next rs a w = some w') :
    (w.event a = none ∧ w'.loop = w.loop) ∨
      ∃ e, w.event a = some e ∧
        (SendLoop.loops config gathered).next e w.loop = some w'.loop := by
  have hbranch (e : SendLoop.Event) (hrun : w.loop.verdict.isNone) (hdue : w.loop.Due e) :
      (SendLoop.loops config gathered).next e w.loop = some (w.loop.branch e).settle.loop :=
    if_pos ⟨hrun, hdue⟩
  cases step_of_next hn with
  | @egress _ message rest now hrun hout =>
    exact .inr ⟨.egress now message, by rw [event, hout]; rfl, hbranch _ hrun trivial⟩
  | egressClosed hrun => exact .inr ⟨_, rfl, hbranch .egressClosed hrun trivial⟩
  | tick now idle wanted hrun => exact .inr ⟨_, rfl, hbranch (.tick now idle wanted) hrun trivial⟩
  | deadline now hrun hdue => exact .inr ⟨_, rfl, hbranch (.deadline now) hrun hdue⟩
  | control now message hrun => exact .inr ⟨_, rfl, hbranch (.control now message) hrun trivial⟩
  | _ => exact .inl ⟨rfl, rfl⟩

/-- The loop's part of a run of the system is a run of the loop. -/
theorem loop_exec (hexec : Labelled.exec (system rs config reader) actions w = some w') :
    Labelled.exec (SendLoop.loops config gathered) (heard rs actions w) w.loop = some w'.loop := by
  induction actions generalizing w with
  | nil =>
    rw [Labelled.exec_nil, Option.some.injEq] at hexec
    rw [hexec]
    rfl
  | cons a rest ih =>
    rw [Labelled.exec_cons, Option.bind_eq_some_iff] at hexec
    obtain ⟨t, ht, hexec⟩ := hexec
    have hnext : next rs a w = some t := ht
    rw [heard, hnext, Option.map_some, Option.getD_some, Labelled.exec_append]
    rcases loop_step config gathered hnext with ⟨hnone, heq⟩ | ⟨e, he, hstep⟩
    · rw [hnone, ← heq]
      exact ih hexec
    · rw [he, Option.toList_some, Labelled.exec_cons, hstep]
      exact ih hexec

theorem loops_start (hstart : start config reader gathered now = .ok w₀) :
    (SendLoop.loops config gathered).init w₀.loop := by
  obtain ⟨hlen, _, _, _, _, rfl⟩ := start_eq_ok hstart
  exact ⟨hlen, now, rfl⟩

/-- The loop in a run of the system, against what it took up. -/
theorem attends (hstart : start config reader gathered now = .ok w₀)
    (hexec : Labelled.exec (system rs config reader) actions w₀ = some w) :
    w.loop.Attends config gathered (heard rs actions w₀) ∧ w.loop.Concluded :=
  SendLoop.attends_of_exec (loops_start hstart) (loop_exec hexec)

/-- What `send_stream` returns: the loop's result, once the slicer task is over too. How that
task ended is not looked at. -/
def returned (w : World) : Option (Except ProtoError Unit) :=
  if w.task.ended.isSome then w.loop.verdict else none

section Completion

/-- What was so stays so. -/
theorem Reported.step {a : Action} (hstep : Step rs a w w') {m : Message} (h : w.Reported m) :
    w'.Reported m := by
  cases hstep with
  | turn r now branch sink hrun henabled hdelivers =>
    exact h.afterTurn (by simpa using hrun) now branch sink
  | _ => exact h

theorem control_of_event {a : Action} {m : Message} (h : w.event a = some (.control now m)) :
    a = .control now m := by
  cases a with
  | egress now =>
    obtain ⟨_, _, heq⟩ := Option.map_eq_some_iff.mp h
    cases heq
  | control now message =>
    cases h
    rfl
  | _ => cases h

/-- Whatever the loop has been told by a receiver is so. -/
theorem reported_of_heard (hstart : start config reader gathered now = .ok w₀)
    (hexec : Labelled.exec (system rs config reader) actions w₀ = some w) {at' : ℕ} {m : Message}
    (hm : .control at' m ∈ heard rs actions w₀) : w.Reported m := by
  refine Labelled.exec_induction (I := fun actions w => ∀ at' m,
    .control at' m ∈ heard rs actions w₀ → w.Reported m) ?_ ?_ hexec at' m hm
  · intro at' m hm
    cases hm
  · intro before a t t' hbefore ih hnext at' m hm
    have hstep := step_of_next hnext
    rw [heard_append hbefore, heard_singleton, List.mem_append, Option.mem_toList] at hm
    rcases hm with hm | hm
    · exact (ih at' m hm).step hstep
    · obtain rfl := control_of_event hm
      have hreach : Labelled.Reachable (system rs config reader) t :=
        .exec (.start ⟨gathered, now, hstart⟩) hbefore
      apply Reported.step hstep
      cases hstep with
      | control _ _ hrun hmem => exact (floors_of_reachable hreach).uplink m hmem

/-- A receiver that ended well has all the slices. -/
theorem not_running_of_ok (h : Labelled.Reachable (system rs config reader) w) {r : ℕ}
    {summary : TransferSummary} (hok : (w.peers r).ended = some (.returned (.ok summary))) :
    ¬ (w.peers r).session.Running := by
  refine Labelled.Reach.invariant (I := fun w => ∀ r summary,
    (w.peers r).ended = some (.returned (.ok summary)) → ¬ (w.peers r).session.Running) ?_ ?_ h r
      summary hok
  · rintro w ⟨gathered, now, hstart⟩ r summary hok
    obtain ⟨-, _, _, -, -, rfl⟩ := start_eq_ok hstart
    cases hok
  · intro a w w' _ ih hnext
    cases step_of_next hnext with
    | turn r' now branch sink hrun henabled hdelivers =>
      apply forall_peers_afterTurn (P := fun _ p => ∀ summary,
        p.ended = some (.returned (.ok summary)) → ¬ p.session.Running) _ fun r _ => ih r
      exact fun summary => Session.not_running_of_turn_ok rs _ now branch sink
    | _ => exact ih

/-- The loop's own count of the slices is the true one. -/
theorem total_eq (hs : w.Sound rs config reader L) {events : List SendLoop.Event}
    (hattends : w.loop.Attends config gathered events) (hdraining : w.loop.draining) :
    reader.fault = none ∧ SendLoop.total config.geometry events = some L.slices := by
  obtain ⟨hfault, -, hblocks, hlt⟩ := hs.totals hdraining
  refine ⟨hfault, ?_⟩
  rw [hattends.counted hdraining, hblocks, ← hs.geometry, ← Ledger.slices, Nat.mod_eq_of_lt hlt]

/-- How many slices an input takes that does not fail. -/
theorem Sound.slices_eq (hs : w.Sound rs config reader L) (hfault : reader.fault = none) :
    L.slices = Chunks.divCeil (Chunks.divCeil reader.bytes.length config.geometry.blockSize)
      config.geometry.blocksPerSlice := by
  rw [Ledger.slices, hs.blocks, List.length_map, Reader.length_blocks hfault, hs.geometry]

/-- A receiver that has all the slices has been given the input. -/
theorem Sound.released (hs : w.Sound rs config reader L) (hfault : reader.fault = none) {r : ℕ}
    (hall : L.slices ≤ w.reached r)
    (hopen : (w.peers r).ended ≠ some (.returned (.error .sinkClosed))) :
    reader.bytes <+: ((w.peers r).sunk ++ (w.peers r).session.pending).flatten := by
  obtain ⟨left, hdelivered, hleft⟩ := (hs.peers r).delivered
  obtain rfl := hleft.resolve_right hopen
  have hblocks : L.blocks.take (w.reached r * L.geometry.blocksPerSlice) = L.blocks := by
    apply List.take_of_length_le
    exact ((Chunks.divCeil_le_iff L.geometry.blocksPerSlice_pos).mp hall)
  obtain ⟨n, hn⟩ := Slicer.flatten_blocks hs.blocks
  rw [Reader.flatten_blocks hfault] at hn
  have hreleased : (w.peers r).session.releasedBytes L = reader.bytes ++ List.replicate n 0 := by
    rw [← hn]
    exact congrArg List.flatten hblocks
  rcases hdelivered.bytes with hb | ⟨-, hb⟩
  · exact (hb.trans hreleased).symm ▸ List.prefix_append _ _
  · have hlen : reader.bytes.length ≤ ((w.peers r).session.releasedBytes L).length := by
      rw [hreleased, List.length_append]
      exact Nat.le_add_right _ _
    exact (hb.trans (List.take_of_length_le hlen)).symm ▸ List.prefix_rfl

/-- Success of the sender means delivery: whoever was counted at the start was evicted or has been
given the whole input. -/
theorem success_is_delivery (hstart : start config reader gathered now = .ok w₀)
    (hexec : Labelled.exec (system rs config reader) actions w₀ = some w)
    (hok : w.loop.verdict = some (.ok ())) {id : ℕ}
    (hid : id ∈ (SendLoop.gather gathered).participants) :
    id ∈ SendLoop.evicted (heard rs actions w₀) w₀.loop ∨
      Chunks.divCeil (Chunks.divCeil reader.bytes.length config.geometry.blockSize)
          config.geometry.blocksPerSlice ≤ w.reached id ∧
        ((w.peers id).ended ≠ some (.returned (.error .sinkClosed)) →
          reader.bytes <+: ((w.peers id).sunk ++ (w.peers id).session.pending).flatten) := by
  have hreach : Labelled.Reachable (system rs config reader) w :=
    .exec (.start ⟨gathered, now, hstart⟩) hexec
  obtain ⟨L, hs⟩ := sound_of_reachable hreach
  obtain ⟨hattends, hconcluded⟩ := attends hstart hexec
  rw [SendLoop.Concluded, hok] at hconcluded
  obtain ⟨-, hdraining, hcomplete⟩ := hconcluded
  obtain ⟨hfault, htotal⟩ := total_eq hs hattends hdraining
  rw [← hs.slices_eq hfault]
  by_cases hevicted : id ∈ SendLoop.evicted (heard rs actions w₀) w₀.loop
  · exact .inl hevicted
  right
  suffices hall : L.slices ≤ w.reached id from ⟨hall, hs.released hfault hall⟩
  rcases hstanding : w.loop.group.standing id with _ | b
  · -- gone, but not for silence: it has left, and so it had everything
    have hloop : Labelled.exec (SendLoop.loops config gathered) (heard rs actions w₀) w₀.loop =
        some w.loop := loop_exec hexec
    rw [SendLoop.standing_eq_none_iff hloop, SendLoop.standing_start (loops_start hstart)]
      at hstanding
    rcases hstanding with hnone | hgone | ⟨at', t, hleave⟩
    · exact absurd hid (Group.standing_eq_none.mp hnone)
    · exact absurd hgone hevicted
    · obtain ⟨summary, hended⟩ := reported_of_heard hstart hexec hleave
      exact Session.slices_le_of_not_running (hs.peers id).tracks
        (not_running_of_ok hreach hended)
  · -- still there: its flag stands for a report of its own
    have hflag := hattends.flag id b hstanding
    have htrue : b = true := by
      by_contra hfalse
      exact (Group.allComplete_iff.mp hcomplete).2 id (by simpa [hfalse] using hstanding)
    rw [htotal, Option.any_some, htrue] at hflag
    obtain ⟨at', stats, hmem, rfl, hle⟩ :=
      SendLoop.exists_of_reportedEnd (SendLoop.reportedEnd_of_lastReport hflag.symm)
    exact hle.trans (reported_of_heard hstart hexec hmem)

/-- An input of one block, up to where its only receiver has ended well. -/
def oneTurn : List Action :=
  [.read, .queue, .egress 0, .read, .queue, .egress 0,
    .turn 0 0 (.packets [(0, .control (.done ⟨7, 1, 1⟩)), (0, paddedShard)]) ⟨1, false⟩]

/-- Its last report is taken up. -/
def reportHeard : List Action := oneTurn ++ [.control 0 (.stats ⟨7, 0, 1, 1, 1, 0⟩)]

/-- Its last report is lost, and its `Leave` is taken up. -/
def reportLost : List Action :=
  oneTurn ++ [.loseUp (.stats ⟨7, 0, 1, 1, 1, 0⟩), .control 0 (.leave 7 0)]

theorem exists_run_to_the_report : ∃ w₀, start (.tiny 2) (.single [1]) [.join 7 0] 0 = .ok w₀ ∧
    ∃ w, Labelled.exec (system .interpolated (.tiny 2) (.single [1])) reportHeard w₀ = some w ∧
      w.loop.verdict = some (.ok ()) ∧
      SendLoop.evicted (heard .interpolated reportHeard w₀) w₀.loop = [] ∧
      ∃ summary, (w.peers 0).ended = some (.returned (.ok summary)) := by
  unfold start
  rw [Reader.items_byte]
  exact ⟨_, rfl, _, rfl, rfl, rfl, _, rfl⟩

theorem success_is_delivery_short_block : ∃ w,
    Labelled.Reachable (system .interpolated (.tiny 2) (.single [1])) w ∧
      w.loop.verdict = some (.ok ()) ∧ 1 ≤ w.reached 0 ∧
      (Reader.single [1]).bytes <+: ((w.peers 0).sunk ++ (w.peers 0).session.pending).flatten := by
  obtain ⟨w₀, hstart, w, hexec, hok, hevicted, summary, hended⟩ := exists_run_to_the_report
  refine ⟨w, .exec (.start ⟨_, _, hstart⟩) hexec, hok, ?_⟩
  have hid : 0 ∈ (SendLoop.gather [.join 7 0]).participants := by decide
  rcases success_is_delivery hstart hexec hok hid with hgone | ⟨hall, hgiven⟩
  · rw [hevicted] at hgone
    cases hgone
  · exact ⟨hall, hgiven (by rw [hended]; simp)⟩

/-- Where nobody is evicted and the loop takes up every `Leave` it still can, it comes to an end. It
ends well exactly where at some point, with the end of the input out and somebody still there, the
last word of everybody there is that they have everything. -/
theorem completion_iff_agreed (hstart : start config reader gathered now = .ok w₀)
    (hexec : Labelled.exec (system rs config reader) actions w₀ = some w)
    (hstay : SendLoop.evicted (heard rs actions w₀) w₀.loop = [])
    (hleave : w.loop.verdict = none → ∀ id ∈ (SendLoop.gather gathered).participants,
      SendLoop.hasLeft (heard rs actions w₀) id) :
    w.loop.verdict ≠ none ∧ (w.loop.verdict = some (.ok ()) ↔
      ∃ before, before <+: heard rs actions w₀ ∧ SendLoop.Agreed config gathered before) := by
  have h₀ := loops_start hstart
  have hloop : Labelled.exec (SendLoop.loops config gathered) (heard rs actions w₀) w₀.loop =
      some w.loop := loop_exec hexec
  refine ⟨fun hrun => ?_, SendLoop.ok_iff_agreed h₀ hloop hstay⟩
  have hopen := (attends hstart hexec).2
  rw [SendLoop.Concluded, hrun] at hopen
  apply hopen.1
  rw [Group.len_eq_zero_iff]
  intro id
  by_contra hthere
  obtain ⟨hid, hstays⟩ := (SendLoop.standing_ne_none_iff h₀ hloop hstay).mp hthere
  rw [hleave hrun id hid] at hstays
  cases hstays

/-- The last report of the only receiver is lost and its `Leave` is not: the group is empty. -/
theorem finished_group_is_called_empty : ∃ w₀,
    start (.tiny 2) (.single [1]) [.join 7 0] 0 = .ok w₀ ∧ ∃ w,
      Labelled.exec (system .interpolated (.tiny 2) (.single [1])) reportLost w₀ = some w ∧
      SendLoop.evicted (heard .interpolated reportLost w₀) w₀.loop = [] ∧
      SendLoop.hasLeft (heard .interpolated reportLost w₀) 0 ∧
      (∃ summary, (w.peers 0).ended = some (.returned (.ok summary))) ∧
      w.loop.verdict = some (.error .noParticipants) := by
  unfold start
  rw [Reader.items_byte]
  exact ⟨_, rfl, _, rfl, rfl, rfl, ⟨_, rfl⟩, rfl⟩

theorem completion_iff_agreed_short_block : ∃ w₀,
    start (.tiny 2) (.single [1]) [.join 7 0] 0 = .ok w₀ ∧ ∃ before,
      before <+: heard .interpolated reportHeard w₀ ∧ SendLoop.Agreed (.tiny 2) [.join 7 0] before := by
  obtain ⟨w₀, hstart, w, hexec, hok, hstay, -⟩ := exists_run_to_the_report
  refine ⟨w₀, hstart, (completion_iff_agreed hstart hexec hstay fun hrun => ?_).2.mp hok⟩
  rw [hok] at hrun
  cases hrun

end Completion

section Fault

variable {error : IoError}

/-- Of an input that fails the end never comes out. -/
theorem Sound.not_draining (h : w.Sound rs config reader L) (hfault : reader.fault = some error) :
    w.loop.draining = false := by
  rw [← Bool.not_eq_true]
  intro hdraining
  have hnone := (h.totals hdraining).1
  rw [hfault] at hnone
  cases hnone

theorem Sound.no_done (h : w.Sound rs config reader L) (hfault : reader.fault = some error)
    (r : ℕ) (done : Done) : .control (.done done) ∉ w.air r := by
  intro hmem
  have hnone := (h.air r _ hmem).1
  rw [hfault] at hnone
  cases hnone

theorem concluded_of_reachable (h : Labelled.Reachable (system rs config reader) w) :
    w.loop.Concluded := by
  obtain ⟨w₀, actions, ⟨gathered, now, hstart⟩, hexec⟩ := Labelled.reachable_iff_exec.mp h
  exact (attends hstart hexec).2

/-- Before the end of the input a loop that is over has lost its slicer or its group. -/
theorem verdict_of_not_draining (h : w.loop.Concluded) (hdraining : w.loop.draining = false)
    {result : Except ProtoError Unit} (hverdict : w.loop.verdict = some result) :
    result = .error .egressClosed ∨ result = .error .noParticipants ∧ w.loop.group.len = 0 := by
  rw [SendLoop.Concluded, hverdict] at h
  split at h
  · next heq => cases heq
  · next heq =>
    rw [hdraining] at h
    exact absurd h.2.1 Bool.false_ne_true
  · next heq => exact .inr ⟨Option.some.inj heq, h⟩
  · next heq => exact .inl (Option.some.inj heq)
  · next heq =>
    rw [hdraining] at h
    exact absurd h.2.1 Bool.false_ne_true
  · exact h.elim

/-- Once the slicer is over, what is left in the channel goes out and the loop finds it closed. -/
theorem canReach_egressClosed (h : Labelled.Reachable (system rs config reader) w)
    (hfault : reader.fault = some error) (hended : w.task.ended.isSome)
    (hrun : w.loop.verdict = none) :
    Labelled.CanReach (system rs config reader)
      (fun w => w.returned = some (.error .egressClosed)) w := by
  induction hout : w.outbound generalizing w with
  | nil =>
    have hstep : (system rs config reader).next .egressClosed w =
        some (w.afterLoop w.loop.egressClosed) :=
      if_pos ⟨by rw [hrun]; rfl, hout, hended⟩
    have hreturned : (w.afterLoop w.loop.egressClosed).returned = some (.error .egressClosed) :=
      if_pos hended
    exact .step hstep (.here hreturned)
  | cons m rest ih =>
    obtain ⟨L, hs⟩ := sound_of_reachable h
    have hstep : (system rs config reader).next (.egress 0) w =
        some ({ w with outbound := rest }.afterLoop (w.loop.egress 0 m)) := by
      simp only [system, next, stepEgress, hout]
      exact if_pos (by rw [hrun]; rfl)
    refine .step hstep (ih (h.step trivial hstep) hended ?_ rfl)
    have hmembers : w.loop.group.participants.values ≠ [] := by
      have hconcluded := concluded_of_reachable h
      rw [SendLoop.Concluded, hrun] at hconcluded
      exact fun hnil => hconcluded.1 (List.length_eq_zero_iff.mpr hnil)
    have hdraining := hs.not_draining hfault
    have hm := hs.emitted m (hs.outbound m (hout ▸ List.mem_cons_self))
    cases m with
    | eof =>
      rw [hm.1] at hfault
      cases hfault
    | shard k slot width floor payload =>
      have hopen := LoopOutcome.settle_of_open
        (o := w.loop.egress 0 (.shard k slot width floor payload)) hrun hmembers hdraining
      simp only [World.afterLoop, hopen]
      exact hrun

/-- The failure of an input is never what `send_stream` returns. No `Done` is ever sent, but the
result is that the channel was closed, or that the group is empty. -/
theorem fault_is_never_reported (hfault : reader.fault = some error)
    (h : Labelled.Reachable (system rs config reader) w) :
    (∀ r done, .control (.done done) ∉ w.air r) ∧
      w.returned ≠ some (.error (.file error)) ∧
      (∀ result, w.returned = some result → result = .error .egressClosed ∨
        result = .error .noParticipants ∧ w.loop.group.len = 0) ∧
      (w.task.ended = some (.returned (.error (.file error))) → w.loop.verdict = none →
        Labelled.CanReach (system rs config reader)
          (fun w => w.returned = some (.error .egressClosed)) w) := by
  obtain ⟨L, hs⟩ := sound_of_reachable h
  have hresult : ∀ result, w.returned = some result → result = .error .egressClosed ∨
      result = .error .noParticipants ∧ w.loop.group.len = 0 := by
    intro result hreturned
    unfold returned at hreturned
    split_ifs at hreturned
    exact verdict_of_not_draining (concluded_of_reachable h) (hs.not_draining hfault) hreturned
  refine ⟨hs.no_done hfault, fun hfile => ?_, hresult, fun hended hrun => ?_⟩
  · rcases hresult _ hfile with heq | ⟨heq, -⟩ <;> cases heq
  · exact canReach_egressClosed h hfault (by rw [hended]; rfl) hrun

/-- A reader that delivers a block and then fails. -/
def failingReader : Reader := ⟨[[1, 2]], by decide, some "boom"⟩

/-- The block is sent, the failure ends the slicer, and all the loop says is that the channel was
closed. -/
theorem exists_failed_transfer : ∃ w,
    Labelled.Reachable (system .interpolated (.tiny 2) failingReader) w ∧
      w.task.ended = some (.returned (.error (.file "boom"))) ∧
      w.loop.group.len = 1 ∧ w.returned = some (.error .egressClosed) := by
  have hitems : failingReader.items (Config.tiny 2).geometry = [.ok [1, 2], .error "boom"] := by
    rw [Reader.items_eq]
    rfl
  obtain ⟨w₀, hstart, w, hrun, hended, hlen, hreturned⟩ : ∃ w₀,
      start (.tiny 2) failingReader [.join 7 0] 0 = .ok w₀ ∧ ∃ w,
      Labelled.exec (system .interpolated (.tiny 2) failingReader)
        [.read, .queue, .read, .egress 0, .egressClosed] w₀ = some w ∧
      w.task.ended = some (.returned (.error (.file "boom"))) ∧
      w.loop.group.len = 1 ∧ w.returned = some (.error .egressClosed) := by
    unfold start
    rw [hitems]
    exact ⟨_, rfl, _, rfl, rfl, rfl, rfl⟩
  exact ⟨w, .exec (.start ⟨_, _, hstart⟩) hrun, hended, hlen, hreturned⟩

theorem failure_is_reported_as_closed : ∃ w result,
    Labelled.Reachable (system .interpolated (.tiny 2) failingReader) w ∧
      w.task.ended = some (.returned (.error (.file "boom"))) ∧ w.loop.group.len = 1 ∧
      w.returned = some result ∧ result ≠ .error (.file "boom") := by
  obtain ⟨w, hreach, hended, hlen, hreturned⟩ := exists_failed_transfer
  exact ⟨w, _, hreach, hended, hlen, hreturned, by simp⟩

theorem fault_is_never_reported_after_a_block : ∃ w,
    Labelled.Reachable (system .interpolated (.tiny 2) failingReader) w ∧
      w.task.ended = some (.returned (.error (.file "boom"))) ∧
      w.returned ≠ some (.error (.file "boom")) := by
  obtain ⟨w, hreach, hended, -, -⟩ := exists_failed_transfer
  exact ⟨w, hreach, hended, (fault_is_never_reported rfl hreach).2.1⟩

end Fault

end World
end Scuttlecast
