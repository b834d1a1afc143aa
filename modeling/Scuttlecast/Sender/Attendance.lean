import Scuttlecast.Sender.Membership
import Scuttlecast.Library.Labelled

/-! Who is taken to have reached the end. The loop's verdict rests on one flag a participant, that
the end of the input clears and every report sets anew. -/
namespace Scuttlecast
namespace Group

variable {g : Group} {id : ℕ}

/-- Whether a receiver takes part, and if so whether it is taken to have reached the end. -/
def standing (g : Group) (id : ℕ) : Option Bool :=
  (g.participants.lookup id).map (·.reachedEnd)

theorem contains_iff : g.contains id ↔ id ∈ g.participants := decide_eq_true_iff

theorem standing_eq_none : g.standing id = none ↔ id ∉ g.participants := by
  rw [standing, Option.map_eq_none_iff, AList.lookup_eq_none]

theorem contains_eq (g : Group) (id : ℕ) : g.contains id = (g.standing id).isSome := by
  rw [contains, standing, Option.isSome_map, Bool.eq_iff_iff, AList.lookup_isSome]
  exact decide_eq_true_iff

theorem len_eq_zero_iff : g.len = 0 ↔ ∀ id, g.standing id = none := by
  rw [len, List.length_eq_zero_iff, Table.values_eq_nil_iff]
  simp only [standing, Option.map_eq_none_iff]

theorem allComplete_iff : g.allComplete ↔ g.len ≠ 0 ∧ ∀ id, g.standing id ≠ some false := by
  have hall : (g.participants.values.all fun p => p.reachedEnd) = true ↔
      ∀ id, g.standing id ≠ some false := by
    simp only [List.all_eq_true, Table.mem_values, standing, Ne, Option.map_eq_some_iff, not_exists,
      not_and, Bool.not_eq_false]
    constructor
    · exact fun h id p hp => h p ⟨id, hp⟩
    · rintro h p ⟨id, hp⟩
      exact h id p hp
  rw [allComplete, decide_eq_true_iff, hall, len, Ne, Ne, List.length_eq_zero_iff]

/-- Those taken to have reached the end, by their names. -/
theorem completeCount_eq (g : Group) : g.completeCount =
    (g.participants.keys.filter fun id => g.standing id = some true).length := by
  have hstanding : ∀ e ∈ g.participants.entries,
      e.2.reachedEnd = decide (g.standing e.1 = some true) := by
    intro e he
    rw [standing, Table.lookup_eq_some_iff.mpr he]
    simp
  rw [completeCount, Table.values, AList.keys, List.keys, List.filter_map, List.filter_map,
    List.length_map, List.length_map]
  congr 1
  exact List.filter_congr hstanding

theorem standing_mapValues {g' : Group} {f : Participant → Participant}
    (h : g'.participants = g.participants.mapValues f) :
    g'.standing id = (g.participants.lookup id).map fun p => (f p).reachedEnd := by
  rw [standing, h, Table.lookup_mapValues, Option.map_map]
  rfl

theorem standing_modify {g' : Group} {f : Participant → Participant} {k : ℕ}
    (h : g'.participants = g.participants.modify k f)
    (hf : ∀ p, (f p).reachedEnd = p.reachedEnd) : g'.standing id = g.standing id := by
  rw [standing, standing, h, Table.lookup_modify]
  split_ifs
  · rw [Option.map_map]
    congr 1
    exact funext hf
  · rfl

@[simp] theorem standing_markAllSeen (now : ℕ) : (g.markAllSeen now).standing id = g.standing id :=
  standing_mapValues (f := fun p => { p with lastSeen := some now }) rfl

@[simp] theorem standing_markSeen (k now : ℕ) : (g.markSeen k now).standing id = g.standing id :=
  standing_modify rfl fun _ => rfl

@[simp] theorem totalSlices_markSeen (k now : ℕ) :
    (g.markSeen k now).totalSlices = g.totalSlices := rfl

theorem standing_onEof (totalSlices : ℕ) :
    (g.onEof totalSlices).standing id = (g.standing id).map fun _ => false := by
  rw [standing_mapValues (f := fun p => { p with reachedEnd := false }) rfl, standing,
    Option.map_map]
  rfl

theorem standing_leave (k : ℕ) :
    (g.leave k).2.standing id = if id = k then none else g.standing id := by
  rw [standing, leave, Table.lookup_erase']
  split_ifs <;> rfl

theorem standing_reapSilent (now timeout : ℕ) : (g.reapSilent now timeout).2.standing id =
    if id ∈ (g.stale now timeout).map Prod.fst then none else g.standing id := by
  rw [standing, reapSilent, Table.lookup_eraseAll]
  split_ifs <;> rfl

theorem report_reachedEnd (p : Participant) (stats : Stats) :
    (p.report stats).2.reachedEnd = p.reachedEnd := by
  unfold Participant.report
  dsimp only
  split
  · rfl
  · split_ifs <;> rfl

@[simp] theorem standing_repairDemand (stats : Stats) :
    (g.repairDemand stats).2.standing id = g.standing id := by
  unfold repairDemand
  split
  · rfl
  · next p hp =>
    simp only [standing, Table.lookup_insert']
    split_ifs with hid
    · rw [hid, hp, Option.map_some, Option.map_some, report_reachedEnd]
    · rfl

@[simp] theorem standing_onNak (nak : Nak) (now : ℕ) :
    (g.onNak nak now).2.standing id = g.standing id := by
  rcases g.onNak_frame nak now with ⟨-, heq⟩ | ⟨-, -, suppressed, heq⟩ <;> rw [heq]
  exact standing_modify rfl fun _ => rfl

/-- A report counts for its receiver only, by what it says against the total. -/
theorem standing_onStats (stats : Stats) : (g.onStats stats).2.standing id =
    if id = stats.receiverId then
      (g.standing id).map fun _ => g.totalSlices.any (· ≤ stats.nextNeededSlice)
    else g.standing id := by
  have hadvance (g' : Group) : g'.advance.2.standing id = g'.standing id := by
    rcases g'.advance_cases with heq | ⟨-, suppressed, heq⟩
    · rw [heq]
    · rw [heq]
      rfl
  rcases g.onStats_cases stats with ⟨hnone, heq⟩ | ⟨p, hp, heq⟩ <;> rw [heq]
  · split_ifs with hid
    · rw [standing, hid, hnone]
      rfl
    · rfl
  · rw [hadvance, standing, heard, Table.lookup_insert']
    split_ifs with hid
    · rw [standing, hid, hp]
      rfl
    · rfl

theorem totalSlices_onStats (stats : Stats) :
    (g.onStats stats).2.totalSlices = g.totalSlices := by
  rcases g.onStats_cases stats with ⟨-, heq⟩ | ⟨p, -, heq⟩ <;> rw [heq]
  rcases (g.heard stats p).advance_cases with hadv | ⟨-, suppressed, hadv⟩
  · rw [hadv]
    rfl
  · rw [hadv]
    rfl

theorem totalSlices_repairDemand (stats : Stats) :
    (g.repairDemand stats).2.totalSlices = g.totalSlices := by
  unfold repairDemand
  split <;> rfl

theorem totalSlices_onNak (nak : Nak) (now : ℕ) :
    (g.onNak nak now).2.totalSlices = g.totalSlices := by
  rcases g.onNak_frame nak now with ⟨-, heq⟩ | ⟨-, -, suppressed, heq⟩ <;> rw [heq]

end Group

namespace SendLoop

/-- What a turn of the loop takes up. -/
inductive Event where
  | egress (now : ℕ) (message : Outbound)
  | egressClosed
  | tick (now : ℕ) (idle : Bool) (wanted : ℕ)
  | deadline (now : ℕ)
  | control (now : ℕ) (message : Message)
  deriving DecidableEq, Repr

/-- The branch that takes it up. -/
def branch (s : SendLoop) : Event → LoopOutcome
  | .egress now message => s.egress now message
  | .egressClosed => s.egressClosed
  | .tick now idle wanted => s.tick now idle wanted
  | .deadline _ => s.deadline
  | .control now message => s.control now message

/-- The drain deadline is the one branch that waits for its time. -/
def Due (s : SendLoop) : Event → Prop
  | .deadline now => s.drainDeadline.any (· ≤ now)
  | _ => True

instance (s : SendLoop) (e : Event) : Decidable (s.Due e) := by
  cases e <;> unfold Due <;> infer_instance

/-- All runs of the loop with those who have joined, if anybody has. -/
def loops (config : Config) (gathered : List Message) : Labelled.System SendLoop Event where
  init s := (gather gathered).len ≠ 0 ∧ ∃ now, s = .new config (gather gathered) now
  next e s := if s.verdict.isNone ∧ s.Due e then some (s.branch e).settle.loop else none

/-- The slices of the input, once its end is out: the loop's own count. -/
def total (g : Geometry) (events : List Event) : Option ℕ :=
  events.foldl (fun total e =>
    match e with
    | .egress _ (.eof _ totalBlocks) =>
      some (Chunks.divCeil totalBlocks g.blocksPerSlice % 2 ^ 32)
    | _ => total) none

/-- What a receiver last said it needs, of the reports since the end of the input was out. -/
def lastReport (id : ℕ) (events : List Event) : Option ℕ :=
  events.foldl (fun report e =>
    match e with
    | .egress _ (.eof _ _) => none
    | .control _ (.stats stats) =>
      if id = stats.receiverId then some stats.nextNeededSlice else report
    | _ => report) none

/-- Who is taken out of the group for silence when the loop takes up the event. -/
def reaped (s : SendLoop) : Event → List ℕ
  | .tick now _ _ => (s.group.stale now silenceTimeout).map Prod.fst
  | _ => []

/-- Everybody who is taken out for silence in a run. -/
def evicted : List Event → SendLoop → List ℕ
  | [], _ => []
  | e :: rest, s => s.reaped e ++ evicted rest (s.branch e).settle.loop

/-- There is somebody to send to, and the input is not out or not with everybody. -/
def Unfinished (s : SendLoop) : Prop := s.group.len ≠ 0 ∧ ¬ (s.draining ∧ s.group.allComplete)

/-- The loop is over for a reason, and goes on for want of one. -/
def Concluded (s : SendLoop) : Prop :=
  match s.verdict with
  | none => s.Unfinished
  | some (.ok ()) => s.group.len ≠ 0 ∧ s.draining ∧ s.group.allComplete
  | some (.error .noParticipants) => s.group.len = 0
  | some (.error .egressClosed) => s.Unfinished
  | some (.error (.transferIncomplete complete participants)) =>
    s.Unfinished ∧ s.draining ∧ complete = s.group.completeCount ∧
      participants = s.participantsAtStart
  | some (.error _) => False

/-- The loop after a run, against what it was told. -/
structure Attends (config : Config) (gathered : List Message) (events : List Event) (s : SendLoop) :
    Prop where
  shape : s.config = config
  start : s.participantsAtStart = (gather gathered).len
  draining : s.draining = (total config.geometry events).isSome
  deadline : s.drainDeadline.isSome = (total config.geometry events).isSome
  slices : s.group.totalSlices = total config.geometry events
  counted : s.draining → total config.geometry events =
    some (Chunks.divCeil s.totalBlocks config.geometry.blocksPerSlice % 2 ^ 32)
  flag : ∀ id b, s.group.standing id = some b →
    b = (total config.geometry events).any fun slices => (lastReport id events).any (slices ≤ ·)

variable {config : Config} {gathered : List Message} {events : List Event} {s s' : SendLoop} {e : Event}
  {g : Geometry} {id : ℕ}

theorem concluded_settle {o : LoopOutcome} (h : o.loop.verdict = none) :
    o.settle.loop.Concluded := by
  have hloop : o.settle.loop = o.loop.checkTop := by
    rw [LoopOutcome.settle, h]
    rfl
  rw [hloop]
  unfold checkTop
  split_ifs with hlen hdone
  · exact hlen
  · exact ⟨hlen, hdone⟩
  · rw [Concluded, h]
    exact ⟨hlen, hdone⟩

/-- An event that is neither the end of the input nor a report. -/
def Event.Silent : Event → Prop
  | .egress _ (.eof _ _) => False
  | .control _ (.stats _) => False
  | _ => True

theorem total_concat (h : ∀ now bytes blocks, e ≠ .egress now (.eof bytes blocks)) :
    total g (events ++ [e]) = total g events := by
  rw [total, List.foldl_append]
  cases e with
  | egress now message =>
    cases message with
    | shard => rfl
    | eof bytes blocks => exact absurd rfl (h now bytes blocks)
  | _ => rfl

theorem lastReport_concat (h : e.Silent) : lastReport id (events ++ [e]) = lastReport id events := by
  rw [lastReport, List.foldl_append]
  cases e with
  | egress now message =>
    cases message with
    | shard => rfl
    | eof => exact h.elim
  | control now message =>
    cases message with
    | stats => exact h.elim
    | _ => rfl
  | _ => rfl

theorem lastReport_concat_eof (id now bytes blocks : ℕ) (events : List Event) :
    lastReport id (events ++ [.egress now (.eof bytes blocks)]) = none := by
  rw [lastReport, List.foldl_append]
  rfl

theorem lastReport_concat_stats (id now : ℕ) (stats : Stats) (events : List Event) :
    lastReport id (events ++ [.control now (.stats stats)]) =
      if id = stats.receiverId then some stats.nextNeededSlice else lastReport id events := by
  rw [lastReport, List.foldl_append]
  rfl

theorem Event.silent_or (e : Event) : e.Silent ∨
    (∃ now bytes blocks, e = .egress now (.eof bytes blocks)) ∨
      ∃ now stats, e = .control now (.stats stats) := by
  cases e with
  | egress now message =>
    cases message with
    | shard => exact .inl trivial
    | eof bytes blocks => exact .inr (.inl ⟨_, _, _, rfl⟩)
  | control now message =>
    cases message with
    | stats stats => exact .inr (.inr ⟨_, _, rfl⟩)
    | _ => exact .inl trivial
  | _ => exact .inl trivial

theorem Event.Silent.total_eq (h : e.Silent) : total g (events ++ [e]) = total g events := by
  apply total_concat
  rintro now bytes blocks rfl
  exact h

/-- A report counts for its receiver, if that one takes part. -/
theorem standing_onStats (now : ℕ) (stats : Stats) : (s.onStats now stats).loop.group.standing id =
    if id = stats.receiverId then
      (s.group.standing id).map fun _ => s.group.totalSlices.any (· ≤ stats.nextNeededSlice)
    else s.group.standing id := by
  unfold onStats
  split_ifs with hcontains hid hid
  · simp [Group.standing_onStats, hid]
  · simp [Group.standing_onStats, hid]
  · rw [Group.contains_eq, ← hid, Bool.not_eq_true, Option.isSome_eq_false_iff,
      Option.isNone_iff_eq_none] at hcontains
    rw [hcontains]
    rfl
  · rfl

/-- A branch that at most takes somebody out of the group. -/
theorem Attends.silent (h : Attends config gathered events s) (he : e.Silent)
    (hshape : s'.config = s.config) (hstart : s'.participantsAtStart = s.participantsAtStart)
    (hdraining : s'.draining = s.draining) (hdeadline : s'.drainDeadline = s.drainDeadline)
    (hblocks : s'.totalBlocks = s.totalBlocks)
    (hslices : s'.group.totalSlices = s.group.totalSlices)
    (hstanding : ∀ id, s'.group.standing id = none ∨
      s'.group.standing id = s.group.standing id) :
    Attends config gathered (events ++ [e]) s' := by
  refine ⟨hshape.trans h.shape, hstart.trans h.start, ?_, ?_, ?_, fun hd => ?_, fun id b hb => ?_⟩
  · rw [he.total_eq, hdraining, h.draining]
  · rw [he.total_eq, hdeadline, h.deadline]
  · rw [he.total_eq, hslices, h.slices]
  · rw [he.total_eq, hblocks]
    exact h.counted (hdraining ▸ hd)
  · rw [he.total_eq, lastReport_concat he]
    rcases hstanding id with hgone | hsame
    · rw [hgone] at hb
      cases hb
    · exact h.flag id b (hsame ▸ hb)

theorem Attends.eof (h : Attends config gathered events s) (now bytes blocks : ℕ) :
    Attends config gathered (events ++ [.egress now (.eof bytes blocks)])
      (s.egress now (.eof bytes blocks)).loop := by
  have htotal : total config.geometry (events ++ [.egress now (.eof bytes blocks)]) =
      some (Chunks.divCeil blocks s.config.geometry.blocksPerSlice % 2 ^ 32) := by
    rw [total, List.foldl_append, h.shape]
    rfl
  refine ⟨h.shape, h.start, ?_, ?_, ?_, fun _ => ?_, fun id b hb => ?_⟩
  · rw [htotal]
    rfl
  · rw [htotal]
    rfl
  · rw [htotal]
    rfl
  · rw [htotal, h.shape]
    rfl
  · have hstanding : (s.group.standing id).map (fun _ => false) = some b :=
      (Group.standing_onEof _).symm.trans hb
    obtain ⟨_, _, rfl⟩ := Option.map_eq_some_iff.mp hstanding
    rw [htotal, lastReport_concat_eof]
    rfl

theorem Attends.stats (h : Attends config gathered events s) (now : ℕ) (stats : Stats) :
    Attends config gathered (events ++ [.control now (.stats stats)]) (s.onStats now stats).loop := by
  have htotal : total config.geometry (events ++ [.control now (.stats stats)]) =
      total config.geometry events := total_concat (by simp)
  have hframe : (s.onStats now stats).loop.config = s.config ∧
      (s.onStats now stats).loop.participantsAtStart = s.participantsAtStart ∧
      (s.onStats now stats).loop.draining = s.draining ∧
      (s.onStats now stats).loop.drainDeadline = s.drainDeadline ∧
      (s.onStats now stats).loop.totalBlocks = s.totalBlocks ∧
      (s.onStats now stats).loop.group.totalSlices = s.group.totalSlices := by
    unfold onStats
    split_ifs
    · exact ⟨rfl, rfl, rfl, rfl, rfl,
        (Group.totalSlices_repairDemand stats).trans (Group.totalSlices_onStats stats)⟩
    · exact ⟨rfl, rfl, rfl, rfl, rfl, rfl⟩
  obtain ⟨hshape, hstart, hdraining, hdeadline, hblocks, hslices⟩ := hframe
  refine ⟨hshape.trans h.shape, hstart.trans h.start, ?_, ?_, ?_, fun hd => ?_, fun id b hb => ?_⟩
  · rw [htotal, hdraining, h.draining]
  · rw [htotal, hdeadline, h.deadline]
  · rw [htotal, hslices, h.slices]
  · rw [htotal, hblocks]
    exact h.counted (hdraining ▸ hd)
  · rw [standing_onStats] at hb
    rw [htotal, lastReport_concat_stats]
    split_ifs at hb ⊢ with hid
    · obtain ⟨_, _, rfl⟩ := Option.map_eq_some_iff.mp hb
      rw [h.slices]
      rfl
    · exact h.flag id b hb

/-- One turn of the loop. -/
theorem Attends.branch (h : Attends config gathered events s) (e : Event) :
    Attends config gathered (events ++ [e]) (s.branch e).loop := by
  cases e with
  | egress now message =>
    cases message with
    | shard => exact h.silent trivial rfl rfl rfl rfl rfl rfl fun id => .inr rfl
    | eof bytes blocks => exact h.eof now bytes blocks
  | egressClosed => exact h.silent trivial rfl rfl rfl rfl rfl rfl fun id => .inr rfl
  | tick now idle wanted =>
    refine h.silent trivial rfl rfl rfl rfl rfl rfl fun id => ?_
    have hstanding : (s.branch (.tick now idle wanted)).loop.group.standing id =
        if id ∈ (s.group.stale now silenceTimeout).map Prod.fst then none
        else s.group.standing id := Group.standing_reapSilent now silenceTimeout
    rw [hstanding]
    split_ifs
    · exact .inl rfl
    · exact .inr rfl
  | deadline now => exact h.silent trivial rfl rfl rfl rfl rfl rfl fun id => .inr rfl
  | control now message =>
    cases message with
    | stats stats => exact h.stats now stats
    | nak nak =>
      exact h.silent trivial rfl rfl rfl rfl rfl (Group.totalSlices_onNak nak now)
        fun id => .inr (Group.standing_onNak nak now)
    | leave t r =>
      have hstanding (id : ℕ) : (s.branch (.control now (.leave t r))).loop.group.standing id =
          if id = r then none else s.group.standing id := Group.standing_leave r
      refine h.silent trivial rfl rfl rfl rfl rfl rfl fun id => ?_
      rw [hstanding]
      split_ifs
      · exact .inl rfl
      · exact .inr rfl
    | _ => exact h.silent trivial rfl rfl rfl rfl rfl rfl fun id => .inr rfl

theorem standing_settle (o : LoopOutcome) :
    o.settle.loop.group.standing id = o.loop.group.standing id := by
  obtain ⟨verdict, heq⟩ := o.settle_eq
  rw [heq]

theorem Attends.settle {o : LoopOutcome} (h : Attends config gathered events o.loop) :
    Attends config gathered events o.settle.loop := by
  obtain ⟨verdict, heq⟩ := o.settle_eq
  rw [heq]
  exact ⟨h.shape, h.start, h.draining, h.deadline, h.slices, h.counted, h.flag⟩

/-- What a turn takes the loop to. -/
theorem next_cases (hn : (loops config gathered).next e s = some s') :
    s.verdict = none ∧ s.Due e ∧ s' = (s.branch e).settle.loop := by
  simp only [loops] at hn
  split_ifs at hn with hguard
  exact ⟨by simpa using hguard.1, hguard.2, (Option.some.inj hn).symm⟩

/-- Only two branches end the loop themselves. -/
theorem branch_verdict (h : s.verdict = none) (e : Event) :
    (s.branch e).loop.verdict = none ∨
      (s.branch e).loop = { s with verdict := some (.error .egressClosed) } ∨
      (∃ now, e = .deadline now) ∧ (s.branch e).loop = { s with
        verdict := some (.error
          (.transferIncomplete s.group.completeCount s.participantsAtStart)) } := by
  cases e with
  | egress now message => cases message <;> exact .inl h
  | egressClosed => exact .inr (.inl rfl)
  | tick => exact .inl h
  | deadline now => exact .inr (.inr ⟨⟨now, rfl⟩, rfl⟩)
  | control now message =>
    left
    cases message with
    | stats stats =>
      simp only [SendLoop.branch, control, onStats]
      split_ifs <;> exact h
    | _ => exact h

theorem concluded_next (h : Attends config gathered events s) (hs : s.Concluded)
    (hn : (loops config gathered).next e s = some s') : s'.Concluded := by
  obtain ⟨hrun, hdue, rfl⟩ := next_cases hn
  have hopen : s.Unfinished := by
    rw [Concluded, hrun] at hs
    exact hs
  rcases branch_verdict hrun e with hnone | heq | ⟨⟨now, rfl⟩, heq⟩
  · exact concluded_settle hnone
  · rw [LoopOutcome.settle, heq]
    exact hopen
  · rw [LoopOutcome.settle, heq]
    refine ⟨hopen, ?_, rfl, rfl⟩
    have hsome : s.drainDeadline.isSome := by
      unfold Due at hdue
      cases hdeadline : s.drainDeadline with
      | none =>
        rw [hdeadline] at hdue
        cases hdue
      | some due => rfl
    simp only
    rw [h.draining, ← h.deadline]
    exact hsome

/-- Nobody has reached the end of an input that is still to come. -/
theorem gather_standing (messages : List Message) (id : ℕ) :
    (gather messages).standing id ≠ some true ∧ (gather messages).totalSlices = none := by
  refine Group.gather_induction (I := fun g => g.standing id ≠ some true ∧ g.totalSlices = none)
    ⟨by simp [Group.standing, Group.empty], rfl⟩ ?_ ?_ messages
  · refine fun g k hg => ⟨?_, hg.2⟩
    rw [Group.standing, Group.join, Table.lookup_insert']
    split_ifs
    · simp [Participant.new]
    · exact hg.1
  · refine fun g k hg => ⟨?_, hg.2⟩
    rw [Group.standing_leave]
    split_ifs
    · simp
    · exact hg.1

theorem attends_new (config : Config) (gathered : List Message) (now : ℕ) :
    Attends config gathered [] (.new config (gather gathered) now) := by
  refine ⟨rfl, rfl, rfl, rfl, (gather_standing gathered 0).2, by simp [new], fun id b hb => ?_⟩
  have hstanding : (gather gathered).standing id = some b :=
    (Group.standing_markAllSeen now).symm.trans hb
  have hnot := (gather_standing gathered id).1
  have hfalse : b = false := by simpa [hstanding] using hnot
  rw [hfalse]
  rfl

theorem concluded_new {config : Config} {gathered : List Message} (now : ℕ)
    (h : (gather gathered).len ≠ 0) : (new config (gather gathered) now).Concluded := by
  refine ⟨fun hzero => h ?_, by simp [new]⟩
  rw [Group.len_eq_zero_iff] at hzero ⊢
  intro id
  exact (Group.standing_markAllSeen now).symm.trans (hzero id)

theorem standing_start {s₀ : SendLoop} (h₀ : (loops config gathered).init s₀) (id : ℕ) :
    s₀.group.standing id = (gather gathered).standing id := by
  obtain ⟨-, now, rfl⟩ := h₀
  exact Group.standing_markAllSeen now

theorem attends_of_exec {s₀ : SendLoop} (h₀ : (loops config gathered).init s₀)
    (hexec : Labelled.exec (loops config gathered) events s₀ = some s) :
    Attends config gathered events s ∧ s.Concluded := by
  refine Labelled.exec_induction (I := fun events s =>
    Attends config gathered events s ∧ s.Concluded) ?_ ?_ hexec
  · obtain ⟨hlen, now, rfl⟩ := h₀
    exact ⟨attends_new config gathered now, concluded_new now hlen⟩
  · rintro events e s s' - ⟨h, hs⟩ hn
    refine ⟨?_, concluded_next h hs hn⟩
    obtain ⟨-, -, rfl⟩ := next_cases hn
    exact (h.branch e).settle

/-- A turn takes out those found silent and those who leave, and nobody else. -/
theorem standing_branch_eq_none_iff (e : Event) : (s.branch e).loop.group.standing id = none ↔
    s.group.standing id = none ∨ id ∈ s.reaped e ∨ ∃ now t, e = .control now (.leave t id) := by
  have hquiet (hreaped : s.reaped e = []) (hleave : ∀ now t, e ≠ .control now (.leave t id))
      (hsame : (s.branch e).loop.group.standing id = none ↔ s.group.standing id = none) :
      (s.branch e).loop.group.standing id = none ↔ s.group.standing id = none ∨
        id ∈ s.reaped e ∨ ∃ now t, e = .control now (.leave t id) := by
    simp [hreaped, hleave, hsame]
  cases e with
  | egress now message =>
    apply hquiet rfl (by simp)
    cases message with
    | shard => exact Iff.rfl
    | eof bytes blocks => simp [branch, egress, Group.standing_onEof]
  | tick now idle wanted =>
    have hstanding : (s.branch (.tick now idle wanted)).loop.group.standing id =
        if id ∈ s.reaped (.tick now idle wanted) then none else s.group.standing id :=
      Group.standing_reapSilent now silenceTimeout
    rw [hstanding]
    split_ifs with hstale <;> simp [hstale]
  | control now message =>
    cases message with
    | stats stats =>
      apply hquiet rfl (by simp)
      rw [branch, control, standing_onStats]
      split_ifs <;> simp
    | nak nak => exact hquiet rfl (by simp) (by simp [branch, control, onNak])
    | leave t r =>
      have hstanding : (s.branch (.control now (.leave t r))).loop.group.standing id =
          if id = r then none else s.group.standing id := Group.standing_leave r
      rw [hstanding]
      split_ifs with hid <;> simp [reaped, hid, eq_comm]
    | _ => exact hquiet rfl (by simp) Iff.rfl
  | _ => exact hquiet rfl (by simp) Iff.rfl

/-- Whoever is missing after a run was missing before it, was taken out for silence, or has left. -/
theorem standing_eq_none_iff {s₀ : SendLoop}
    (hexec : Labelled.exec (loops config gathered) events s₀ = some s) :
    s.group.standing id = none ↔ s₀.group.standing id = none ∨ id ∈ evicted events s₀ ∨
      ∃ now t, .control now (.leave t id) ∈ events := by
  induction events generalizing s₀ with
  | nil =>
    rw [Labelled.exec_nil, Option.some.injEq] at hexec
    simp [hexec, evicted]
  | cons e rest ih =>
    rw [Labelled.exec_cons, Option.bind_eq_some_iff] at hexec
    obtain ⟨s₁, hnext, hexec⟩ := hexec
    obtain ⟨-, -, rfl⟩ := next_cases hnext
    rw [ih hexec, standing_settle, standing_branch_eq_none_iff, evicted,
      List.mem_append]
    simp only [List.mem_cons, exists_or, eq_comm (b := e), or_assoc, or_left_comm]

section Count

variable {before after : List Event} {slices : ℕ}

/-- The receiver has said in one of these events that it needs none of the slices any more. -/
def reportedEnd (slices : ℕ) (events : List Event) (id : ℕ) : Bool :=
  events.any fun e =>
    match e with
    | .control _ (.stats stats) => stats.receiverId = id ∧ slices ≤ stats.nextNeededSlice
    | _ => false

/-- No report of a receiver comes after one that says more. -/
def Event.Precedes : Event → Event → Prop
  | .control _ (.stats stats), .control _ (.stats stats') =>
    stats.receiverId = stats'.receiverId → stats.nextNeededSlice ≤ stats'.nextNeededSlice
  | _, _ => True

instance (e e' : Event) : Decidable (e.Precedes e') := by
  unfold Event.Precedes
  split <;> infer_instance

/-- The end of the input. -/
def Event.isEnd : Event → Bool
  | .egress _ (.eof _ _) => true
  | _ => false

/-- After the last end of the input the total stays as it is, and reports count from there. -/
theorem heard_since_end {now bytes blocks : ℕ} (hafter : ∀ e ∈ after, e.isEnd = false) :
    total g (before ++ .egress now (.eof bytes blocks) :: after) =
        some (Chunks.divCeil blocks g.blocksPerSlice % 2 ^ 32) ∧
      lastReport id (before ++ .egress now (.eof bytes blocks) :: after) = lastReport id after := by
  induction after using List.reverseRecOn with
  | nil =>
    rw [total, lastReport, List.foldl_append, List.foldl_append]
    exact ⟨rfl, rfl⟩
  | append_singleton after e ih =>
    obtain ⟨htotal, hreport⟩ := ih fun e he => hafter e (List.mem_append_left _ he)
    have hend := hafter e (List.mem_append_right _ List.mem_cons_self)
    rw [← List.cons_append, ← List.append_assoc]
    constructor
    · rw [total_concat, htotal]
      rintro now bytes blocks rfl
      cases hend
    · rw [lastReport, List.foldl_append, ← lastReport, hreport]
      conv_rhs => rw [lastReport, List.foldl_append, ← lastReport]

theorem reportedEnd_concat (slices : ℕ) (events : List Event) (e : Event) (id : ℕ) :
    reportedEnd slices (events ++ [e]) id =
      (reportedEnd slices events id || reportedEnd slices [e] id) := List.any_append ..

theorem Event.Silent.reportedEnd_eq (h : e.Silent) : reportedEnd slices [e] id = false := by
  cases e with
  | control now message => cases message <;> first | rfl | exact h.elim
  | _ => rfl

theorem reportedEnd_stats (slices now : ℕ) (stats : Stats) (id : ℕ) :
    reportedEnd slices [.control now (.stats stats)] id =
      decide (stats.receiverId = id ∧ slices ≤ stats.nextNeededSlice) := Bool.or_false _

theorem exists_of_reportedEnd (h : reportedEnd slices events id) : ∃ now stats,
    .control now (.stats stats) ∈ events ∧ stats.receiverId = id ∧
      slices ≤ stats.nextNeededSlice := by
  obtain ⟨e, he, hsaid⟩ := List.any_eq_true.mp h
  cases e with
  | control now message =>
    cases message with
    | stats stats => exact ⟨now, stats, he, of_decide_eq_true hsaid⟩
    | _ => cases hsaid
  | _ => cases hsaid

/-- What was said last has been said. -/
theorem reportedEnd_of_lastReport (h : (lastReport id events).any (slices ≤ ·)) :
    reportedEnd slices events id := by
  induction events using List.reverseRecOn with
  | nil => cases h
  | append_singleton events e ih =>
    rw [reportedEnd_concat, Bool.or_eq_true]
    rcases e.silent_or with hsilent | ⟨now, bytes, blocks, rfl⟩ | ⟨now, stats, rfl⟩
    · rw [lastReport_concat hsilent] at h
      exact .inl (ih h)
    · rw [lastReport_concat_eof] at h
      cases h
    · rw [lastReport_concat_stats] at h
      split_ifs at h with hid
      · rw [reportedEnd_stats]
        exact .inr (decide_eq_true ⟨hid.symm, of_decide_eq_true h⟩)
      · exact .inl (ih h)

/-- In order, the last report is the one that says most. -/
theorem lastReport_eq (horder : events.Pairwise Event.Precedes)
    (hevents : ∀ e ∈ events, e.isEnd = false) :
    ((lastReport id events).any fun needed => slices ≤ needed) = reportedEnd slices events id := by
  induction events using List.reverseRecOn with
  | nil => rfl
  | append_singleton events e ih =>
    obtain ⟨horder, -, hlast⟩ := List.pairwise_append.mp horder
    have hrest := ih horder fun e he => hevents e (List.mem_append_left _ he)
    have hend := hevents e (List.mem_append_right _ List.mem_cons_self)
    rw [reportedEnd_concat]
    rcases e.silent_or with hsilent | ⟨now, bytes, blocks, rfl⟩ | ⟨now, stats, rfl⟩
    · rw [lastReport_concat hsilent, hrest, hsilent.reportedEnd_eq, Bool.or_false]
    · cases hend
    · rw [lastReport_concat_stats, reportedEnd_stats]
      split_ifs with hid
      · -- an earlier report says no more than this one
        have hearlier : reportedEnd slices events id → slices ≤ stats.nextNeededSlice := by
          intro hreported
          obtain ⟨now', stats', hmem, hid', hle⟩ := exists_of_reportedEnd hreported
          exact hle.trans (hlast _ hmem _ List.mem_cons_self (hid'.trans hid))
        rw [Bool.eq_iff_iff]
        simp only [Option.any_some, decide_eq_true_eq, Bool.or_eq_true, hid, true_and]
        constructor
        · exact .inr
        · rintro (hreported | hle)
          · exact hearlier (hid ▸ hreported)
          · exact hle
      · have hne : ¬ stats.receiverId = id := fun heq => hid heq.symm
        simp [hrest, hne]

end Count

end SendLoop
end Scuttlecast
